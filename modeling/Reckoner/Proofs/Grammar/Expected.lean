import Reckoner.Proofs.Grammar.Frontier

/-!
# What is expected where a text is refused

The reader decides in the middle of its rules why it refuses a token, but the answer can be read off from what stands in
front of the token: its last lexeme or two, and whether a parenthesis is open (`expectedBehind`). Only the limit of
nesting is not seen there.

* What a rule has derived demands nothing behind it, and its parentheses are closed (`Derives.complete`).
* What a rule has read when it fails demands what the failure says, or else has a parenthesis to close (`Wants`). A rule
  that fails at its first token has read nothing, and what is missing is then up to the rule (`Explains`). The rule
  around it knows which token it is behind. The induction is on the failure (`Fails.explains`).
* Each level of nesting stands for a token that was read (`Fails.le_length_of_tooDeep`).
-/

namespace Reckoner.Expr

/-! ## What the last tokens demand -/

/-- What has to follow the last of the kinds, which come in reverse, if that is certain from them alone. -/
def demanded : List Token.Kind → Option SyntaxProblem
  | [] | .leftParen :: _ | .equal :: _ => some .expectedExpression
  | .plus :: _ | .minus :: _ | .star :: _ | .slash :: _ | .caret :: _ => some .expectedOperand
  | .keyword _ :: _ => some .expectedIdentifier
  | .identifier _ :: .keyword _ :: _ => some .expectedEquals
  | _ => none

def opened (kinds : List Token.Kind) : Nat :=
  kinds.countP (· = .leftParen)

def closed (kinds : List Token.Kind) : Nat :=
  kinds.countP (· = .rightParen)

/-- What is missing behind tokens of these kinds: what the last of them demand, or else a parenthesis if one is open, or
else an operator. -/
def expectedBehind (kinds : List Token.Kind) : SyntaxProblem :=
  (demanded kinds.reverse).getD
    (if closed kinds < opened kinds then .expectedRightParen else .expectedOperator)

/-- Further back than a token that is no keyword nothing is demanded. -/
theorem demanded_append_cons {ks : List Token.Kind} {k : Token.Kind} (hne : ks ≠ [])
    (hk : ∀ word, k ≠ .keyword word) (ks' : List Token.Kind) : demanded (ks ++ k :: ks') = demanded ks := by
  match ks, hne with
  | [x], _ =>
    cases x with
    | identifier name =>
      cases k with
      | keyword word => exact absurd rfl (hk word)
      | _ => rfl
    | _ => rfl
  | x :: y :: ks, _ => cases x <;> cases y <;> rfl

/-! ## What is complete -/

/-- The tokens demand nothing behind them, and their parentheses are closed. -/
structure Complete (kinds : List Token.Kind) : Prop where
  demanded : demanded kinds.reverse = none
  balanced : closed kinds = opened kinds

/-- Neither a parenthesis nor a keyword. -/
def Joins (k : Token.Kind) : Prop :=
  k ≠ .leftParen ∧ k ≠ .rightParen ∧ ∀ word, k ≠ .keyword word

section

variable {ks ks' : List Token.Kind} {k : Token.Kind}

@[simp] theorem opened_append (ks ks' : List Token.Kind) : opened (ks ++ ks') = opened ks + opened ks' :=
  List.countP_append

@[simp] theorem closed_append (ks ks' : List Token.Kind) : closed (ks ++ ks') = closed ks + closed ks' :=
  List.countP_append

@[simp] theorem opened_cons (k : Token.Kind) (ks : List Token.Kind) :
    opened (k :: ks) = opened ks + if k = .leftParen then 1 else 0 := by
  simp [opened, List.countP_cons]

@[simp] theorem closed_cons (k : Token.Kind) (ks : List Token.Kind) :
    closed (k :: ks) = closed ks + if k = .rightParen then 1 else 0 := by
  simp [closed, List.countP_cons]

theorem Complete.ne_nil (h : Complete ks) : ks ≠ [] := by
  rintro rfl
  cases h.demanded

theorem Complete.join (ks : List Token.Kind) (h : closed ks = opened ks) (hk : Joins k) (h' : Complete ks') :
    Complete (ks ++ k :: ks') := by
  constructor
  · rw [List.reverse_append, List.reverse_cons, List.append_assoc, List.singleton_append,
      demanded_append_cons (by simpa using h'.ne_nil) hk.2.2, h'.demanded]
  · simp only [opened_append, closed_append, opened_cons, closed_cons, if_neg hk.1, if_neg hk.2.1, h, h'.balanced]

theorem Complete.group (h : Complete ks) : Complete (.leftParen :: (ks ++ [.rightParen])) := by
  constructor
  · simp [Expr.demanded]
  · have hbalanced := h.balanced
    have hnil : closed [] = 0 ∧ opened [] = 0 := ⟨rfl, rfl⟩
    simp
    omega

theorem joins_of_op? {c : Chain} {op : Op} (h : c.op? k = some op) : Joins k := by
  cases c <;> cases k <;> first | (simp [Joins]; done) | cases h

theorem joins_of_sign? {op : Sign} (h : k.sign? = some op) : Joins k := by
  cases k <;> first | (simp [Joins]; done) | cases h

end

/-- What a rule derives is complete. -/
theorem Derives.complete {rule : Rule} {d : Nat} {ts : List Token} {tree : Expr} (h : Derives rule d ts tree) :
    Complete (ts.map Token.kind) := by
  induction h using Derives.rec (motive_2 := fun _ _ _ ts _ _ => Complete (ts.map Token.kind)) with
  | declaration k name s nameSpan s' _ ih => exact .join [.keyword k, .identifier name] rfl (by simp [Joins]) ih
  | sum _ ih | chain _ ih | unsigned _ ih | base _ ih => exact ih
  | signed hop _ _ ih => exact .join [] rfl (joins_of_sign? hop) ih
  | raised s _ _ _ ih₁ ih₂ =>
    rw [List.map_append, List.map_cons]
    exact .join _ ih₁.balanced (by simp [Joins]) ih₂
  | number n s | identifier name s => exact ⟨rfl, rfl⟩
  | group s s' _ _ ih => simpa using ih.group
  | first _ ih => exact ih
  | next _ hop _ _ ih₁ ih₂ =>
    rw [List.map_append, List.map_cons]
    exact .join _ ih₁.balanced (joins_of_op? hop) ih₂

/-! ## What is missing -/

/-- The tokens are expected to go on as the problem says, for what the last of them demand, or for a parenthesis that is
open. -/
inductive Wants (kinds : List Token.Kind) : SyntaxProblem → Prop
  | last {problem : SyntaxProblem} : demanded kinds.reverse = some problem → Wants kinds problem
  | parenthesis : demanded kinds.reverse = none → closed kinds < opened kinds → Wants kinds .expectedRightParen

theorem Wants.expectedBehind_eq {kinds : List Token.Kind} {problem : SyntaxProblem} (h : Wants kinds problem) :
    expectedBehind kinds = problem := by
  cases h with
  | last h => rw [expectedBehind, h, Option.getD_some]
  | parenthesis h hlt => rw [expectedBehind, h, Option.getD_none, if_pos hlt]

theorem Complete.expectedBehind_eq {kinds : List Token.Kind} (h : Complete kinds) :
    expectedBehind kinds = .expectedOperator := by
  rw [expectedBehind, h.demanded, Option.getD_none, if_neg (Nat.not_lt.mpr h.balanced.ge)]

/-- What is missing where a rule finds nothing that it can start with. -/
def Rule.missing : Rule → SyntaxProblem
  | expression => .expectedExpression
  | _ => .expectedOperand

/-- Why a rule fails for the problem behind tokens of these kinds, and in front of `next`. -/
inductive Explains (rule : Rule) (next : Option Token) : List Token.Kind → SyntaxProblem → Prop
  | tooDeep (kinds : List Token.Kind) : Explains rule next kinds .tooDeep
  | atStart : (∀ t ∈ next, rule.starts t.kind = false) → Explains rule next [] rule.missing
  | behind {kinds : List Token.Kind} {problem : SyntaxProblem} : kinds ≠ [] → Wants kinds problem →
      Explains rule next kinds problem

/-- A rule fails inside another one, behind a token that demands the rule. -/
theorem Explains.inside {rule : Rule} {next : Option Token} {ks' : List Token.Kind} {k : Token.Kind}
    {problem : SyntaxProblem} (h : Explains rule next ks' problem) (ks : List Token.Kind) (hks : closed ks = opened ks)
    (hk : ∀ ks, demanded (k :: ks) = some rule.missing) (outer : Rule) :
    Explains outer next (ks ++ k :: ks') problem := by
  have hword : ∀ word, k ≠ .keyword word := by
    rintro word rfl
    have hmissing := hk []
    cases rule <;> cases hmissing
  have hclose : k ≠ .rightParen := by
    rintro rfl
    cases hk []
  have hreverse : (ks ++ k :: ks').reverse = ks'.reverse ++ k :: ks.reverse := by simp
  cases h with
  | tooDeep => exact .tooDeep _
  | atStart _ => exact .behind (by simp) (.last (by rw [hreverse]; exact hk _))
  | behind hne hwants =>
    have hdemanded : demanded (ks'.reverse ++ k :: ks.reverse) = demanded ks'.reverse :=
      demanded_append_cons (by simpa using hne) hword ks.reverse
    refine .behind (by simp) ?_
    cases hwants with
    | last h => exact .last (by rw [hreverse, hdemanded, h])
    | parenthesis h hlt =>
      refine .parenthesis (by rw [hreverse, hdemanded, h]) ?_
      simp only [opened_append, closed_append, opened_cons, closed_cons, if_neg hclose, hks]
      omega

/-- A rule fails where another one does that begins with it. -/
theorem Explains.outer {rule outer : Rule} {next : Option Token} {ks : List Token.Kind} {problem : SyntaxProblem}
    (h : Explains rule next ks problem)
    (hstart : ks = [] → (∀ t ∈ next, rule.starts t.kind = false) →
      outer.missing = rule.missing ∧ ∀ t ∈ next, outer.starts t.kind = false) : Explains outer next ks problem := by
  cases h with
  | tooDeep => exact .tooDeep _
  | behind hne hwants => exact .behind hne hwants
  | atStart hnext =>
    obtain ⟨hmissing, houter⟩ := hstart rfl hnext
    exact hmissing ▸ .atStart houter

theorem demanded_of_op? {c : Chain} {k : Token.Kind} {op : Op} (h : c.op? k = some op) (ks : List Token.Kind) :
    demanded (k :: ks) = some c.operand.missing := by
  cases c <;> cases k <;> first | rfl | cases h

theorem demanded_of_sign? {k : Token.Kind} {op : Sign} (h : k.sign? = some op) (ks : List Token.Kind) :
    demanded (k :: ks) = some Rule.factor.missing := by
  cases k <;> first | rfl | cases h

/-- Each failure is explained by the tokens that were read. -/
theorem Fails.explains {rule : Rule} {d : Nat} {us : List Token} {next : Option Token} {problem : SyntaxProblem}
    (h : Fails rule d us next problem) : Explains rule next (us.map Token.kind) problem := by
  induction h with
  | expression hstart => exact .atStart hstart
  | name k s _ => exact .behind (by simp) (.last rfl)
  | equals k name s nameSpan _ => exact .behind (by simp) (.last rfl)
  | declaration k name s nameSpan s' _ ih =>
    exact ih.inside [.keyword k, .identifier name] rfl (fun _ => rfl) .expression
  | sum _ hstart ih =>
    -- the sum was chosen for its first token, so it does not fail there
    refine ih.outer fun hks hnext => ?_
    obtain rfl := List.map_eq_nil_iff.mp hks
    obtain ⟨t, ht, hkind⟩ := hstart
    exact absurd (hnext t ht) (by simp [Rule.starts, hkind])
  | @firstOperand c _ _ _ _ _ ih =>
    refine ih.outer fun _ hnext => ?_
    cases c <;> exact ⟨rfl, hnext⟩
  | chainTooDeep _ _ _ => exact .tooDeep _
  | nextOperand hleft hop _ _ ih =>
    rw [List.map_append, List.map_cons]
    exact ih.inside _ (Derives.chain hleft).complete.balanced (demanded_of_op? hop) _
  | signTooDeep _ _ => exact .tooDeep _
  | signed hop _ _ ih => exact ih.inside [] rfl (demanded_of_sign? hop) .factor
  | unsigned _ hsign ih =>
    refine ih.outer fun hks hnext => ⟨rfl, fun t ht => ?_⟩
    obtain rfl := List.map_eq_nil_iff.mp hks
    simpa [Rule.starts, hsign t ht] using hnext t ht
  | base _ ih => exact ih.outer fun _ hnext => ⟨rfl, hnext⟩
  | caretTooDeep _ _ _ => exact .tooDeep _
  | exponent s hbase _ _ ih =>
    rw [List.map_append, List.map_cons]
    exact ih.inside _ hbase.complete.balanced (fun _ => rfl) _
  | leftParenTooDeep _ _ => exact .tooDeep _
  | group s _ _ ih => exact ih.inside [] rfl (fun _ => rfl) .atom
  | @rightParen _ us _ _ s _ hinner _ _ =>
    obtain ⟨hdemanded, hbalanced⟩ := hinner.complete
    refine .behind (by simp) (.parenthesis ?_ (by simp [hbalanced]))
    have hne : (us.map Token.kind).reverse ≠ [] := by simpa using hinner.complete.ne_nil
    rw [List.map_cons, List.reverse_cons, demanded_append_cons hne (by simp), hdemanded]
  | atom hstart => exact .atStart hstart

theorem Refusal.eq_tooDeep_or {us : List Token} {next : Option Token} {problem : SyntaxProblem}
    (h : Refusal us next problem) : problem = .tooDeep ∨ problem = expectedBehind (us.map Token.kind) := by
  cases h with
  | leftOver hder _ _ => exact Or.inr hder.complete.expectedBehind_eq.symm
  | fails hfails =>
    have hexplains := hfails.explains
    generalize us.map Token.kind = ks at hexplains ⊢
    cases hexplains with
    | tooDeep => exact Or.inl rfl
    | atStart _ => exact Or.inr rfl
    | behind _ hwants => exact Or.inr hwants.expectedBehind_eq.symm

/-! ## What is nested too deeply -/

/-- Each level that a chain has taken stands for an operator. -/
theorem Folded.le_length {c : Chain} {d k : Nat} {us : List Token} {left : Expr} (h : Folded c d k us left) :
    k ≤ us.length :=
  match h with
  | .first _ => Nat.zero_le _
  | .next hleft _ _ _ => by
    have := hleft.le_length
    rw [List.length_append, List.length_cons]
    omega

/-- Each level stands for a token that was read, so few tokens are never nested too deeply. -/
theorem Fails.le_length_of_tooDeep {rule : Rule} {d : Nat} {us : List Token} {next : Option Token}
    {problem : SyntaxProblem} (h : Fails rule d us next problem) (hdeep : problem = .tooDeep) :
    maxDepth ≤ d + us.length := by
  induction h with
  | expression | name | equals | rightParen | atom => cases hdeep
  | sum _ _ ih | firstOperand _ ih | unsigned _ _ ih | base _ ih => exact ih hdeep
  | chainTooDeep hleft _ hd =>
    have := hleft.le_length
    omega
  | signTooDeep _ hd | caretTooDeep _ _ hd | leftParenTooDeep _ hd => exact hd.trans (Nat.le_add_right _ _)
  | nextOperand hleft _ _ _ ih =>
    have := hleft.le_length
    have := ih hdeep
    rw [List.length_append, List.length_cons]
    omega
  | exponent _ _ _ _ ih =>
    have := ih hdeep
    rw [List.length_append, List.length_cons]
    omega
  | declaration _ _ _ _ _ _ ih | signed _ _ _ ih | group _ _ _ ih =>
    have := ih hdeep
    simp only [List.length_cons]
    omega

theorem Refusal.le_length_of_tooDeep {us : List Token} {next : Option Token} (h : Refusal us next .tooDeep) :
    maxDepth ≤ us.length := by
  cases h with
  | fails hfails => simpa using hfails.le_length_of_tooDeep rfl

/-! ## Whole lists of tokens -/

/-- **The problem is known from what stands in front**: when a list whose only end is its last token is refused, then at
the first token that does not fit, and for what is missing behind the tokens in front of that one, unless it is nested
too deeply; then there are `maxDepth` tokens in front of it at least. -/
theorem exists_expectedBehind_of_ofTokens_eq_error {ts : List Token} {e : Diagnostic} (hts : Token.Terminated ts)
    (h : ofTokens ts = .error e) : ∃ i t problem, ts[i]? = some t ∧ Frontier ts i ∧ e = .ofSyntax problem t.span ∧
      (problem ≠ .tooDeep → problem = expectedBehind ((ts.take i).map Token.kind)) ∧
      (problem = .tooDeep → maxDepth ≤ i) := by
  obtain ⟨i, t, problem, ht, rfl, hrefusal, hfrontier⟩ := exists_refusal_of_ofTokens_eq_error hts h
  refine ⟨i, t, problem, ht, hfrontier, rfl, fun hdeep => hrefusal.eq_tooDeep_or.resolve_left hdeep, ?_⟩
  rintro rfl
  exact hrefusal.le_length_of_tooDeep.trans (List.length_take_le i ts)

/-- The tokens of `(let y`. -/
def unassigned (source : Source) : List Token :=
  [⟨.leftParen, source.bytes 0 1⟩, ⟨.keyword .letKeyword, source.bytes 1 4⟩, ⟨.identifier "y", source.bytes 5 6⟩,
    ⟨.eof, source.bytes 6 7⟩]

/-- Behind `(let y` an equals sign is missing, though a parenthesis is open too. -/
theorem exists_expectedBehind_unassigned :
    let source : Source := ⟨"<stdin>", "(let y"⟩
    let ts := unassigned source
    Token.scan source = .ok ts ∧ Token.Terminated ts ∧
      ofTokens ts = .error (.ofSyntax .expectedEquals (source.bytes 6 7)) ∧ Frontier ts 3 ∧
      expectedBehind ((ts.take 3).map Token.kind) = .expectedEquals := by
  intro source ts
  have hlast : Token.Terminated ts := ⟨ts.take 3, _, rfl, rfl, by decide⟩
  have herror : ofTokens ts = .error (.ofSyntax .expectedEquals (source.bytes 6 7)) := by decide +kernel
  refine ⟨by decide +kernel, hlast, herror, ?_⟩
  obtain ⟨i, t, problem, ht, hfrontier, he, hproblem, -⟩ := exists_expectedBehind_of_ofTokens_eq_error hlast herror
  -- the other tokens stand elsewhere
  have hi : i = 3 := by
    rcases i with _ | _ | _ | _ | i
    case succ.succ.succ.zero => rfl
    case succ.succ.succ.succ => cases ht
    all_goals
      cases ht
      cases he
  subst hi
  cases ht
  cases he
  exact ⟨hfrontier, (hproblem (by decide)).symm⟩

end Reckoner.Expr
