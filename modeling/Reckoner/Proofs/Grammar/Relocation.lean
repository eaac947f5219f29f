import Reckoner.Proofs.Grammar.Reading

/-!
# Reading relocated tokens

The reader never looks at a span. All it does to spans is to set two of them together, from the start of the one to the
end of the other. So whatever is done to the spans of all tokens alike, if it can be done before or after that
(`Span.Distributes`), then the tokens are read to the same tree with the same done to its spans, or they stop the reader
for the same problem at the same token (`read_mapSpan`). The induction is that of the reader, on the tokens that are
left.
-/

namespace Reckoner

/-- It makes no difference whether spans are set together before or after. -/
def Span.Distributes (g : Span → Span) : Prop :=
  ∀ s t : Span, g (s.through t) = (g s).through (g t)

def Token.mapSpan (g : Span → Span) (t : Token) : Token :=
  { t with span := g t.span }

@[simp] theorem Token.kind_mapSpan (g : Span → Span) (t : Token) : (t.mapSpan g).kind = t.kind := rfl

/-- The diagnostic at another place. Frames stay what they are. -/
def Diagnostic.mapSpan (g : Span → Span) (d : Diagnostic) : Diagnostic :=
  { d with span := g d.span }

namespace Expr

/-- The tree with `g` done to the span of each node. -/
def mapSpan (g : Span → Span) : Expr → Expr
  | literal value s => literal value (g s)
  | access name s => access name (g s)
  | unary op operand s => unary op (operand.mapSpan g) (g s)
  | binary left op right s => binary (left.mapSpan g) op (right.mapSpan g) (g s)
  | assign k name value s => assign k name (value.mapSpan g) (g s)

/-- What was read and what is left, or why nothing was, with `g` done to all spans. -/
def mapReading (g : Span → Span) : Except Stuck (Expr × List Token) → Except Stuck (Expr × List Token)
  | .ok (tree, rest) => .ok (tree.mapSpan g, rest.map (Token.mapSpan g))
  | .error stuck => .error ⟨stuck.problem, stuck.rest.map (Token.mapSpan g)⟩

section

variable {g : Span → Span} {room : Nat} {ts : List Token}

@[simp] theorem span_mapSpan (e : Expr) : (e.mapSpan g).span = g e.span := by
  cases e <;> rfl

theorem mapSpan_sign (hg : Span.Distributes g) (op : Sign) (s : Span) (operand : Expr) :
    (sign op s operand).mapSpan g = sign op (g s) (operand.mapSpan g) := by
  rw [sign, sign, mapSpan, hg, span_mapSpan]

theorem mapSpan_operate (hg : Span.Distributes g) (left : Expr) (op : Op) (right : Expr) :
    (operate left op right).mapSpan g = operate (left.mapSpan g) op (right.mapSpan g) := by
  rw [operate, operate, mapSpan, hg, span_mapSpan, span_mapSpan]

theorem mapSpan_declare (hg : Span.Distributes g) (k : Keyword) (name : String) (s : Span) (value : Expr) :
    (declare k name s value).mapSpan g = declare k name (g s) (value.mapSpan g) := by
  rw [declare, declare, mapSpan, hg, span_mapSpan]

theorem mapReading_map {f f' : Expr → Expr} (h : ∀ e, (f e).mapSpan g = f' (e.mapSpan g))
    (r : Except Stuck (Expr × List Token)) :
    mapReading g (r.map fun p => (f p.1, p.2)) = (mapReading g r).map fun p => (f' p.1, p.2) := by
  rcases r with stuck | ⟨tree, rest⟩
  · rfl
  · simp only [Except.map, mapReading, h]

/-- Two readers one behind the other, when it is known of the second one wherever the first can leave off. -/
theorem mapReading_bind {r : Except Stuck (Expr × List Token)}
    {f f' : Expr × List Token → Except Stuck (Expr × List Token)}
    (h : ∀ tree rest, r = .ok (tree, rest) →
      mapReading g (f (tree, rest)) = f' (tree.mapSpan g, rest.map (Token.mapSpan g))) :
    mapReading g (r.bind f) = (mapReading g r).bind f' := by
  rcases r with stuck | ⟨tree, rest⟩
  · rfl
  · exact h tree rest rfl

/-- A chain that ends at once. -/
theorem readChain_mapSpan_of_head? {c : Chain} (left : Expr) (h : ∀ t ∈ ts.head?, c.op? t.kind = none) :
    readChain c room (left.mapSpan g) (ts.map (Token.mapSpan g)) = mapReading g (readChain c room left ts) := by
  rcases ts with _ | ⟨t, ts⟩
  · rw [List.map_nil, readChain_nil, readChain_nil]
    rfl
  · have hop : c.op? t.kind = none := h t rfl
    have hop' : c.op? (t.mapSpan g).kind = none := hop
    rw [readChain_of_op?_eq_none left hop, List.map_cons, readChain_of_op?_eq_none (left.mapSpan g) hop']
    rfl

theorem forall_head?_or_exists_op (c : Chain) (ts : List Token) :
    (∀ t ∈ ts.head?, c.op? t.kind = none) ∨ ∃ t op us, ts = t :: us ∧ c.op? t.kind = some op := by
  rcases ts with _ | ⟨t, us⟩
  · exact Or.inl (by simp)
  · cases hop : c.op? t.kind with
    | none => exact Or.inl (by simpa using hop)
    | some op => exact Or.inr ⟨t, op, us, rfl, hop⟩

/-- A chain, when it is known of its operands on fewer than `n` tokens. -/
theorem readChain_mapSpan (hg : Span.Distributes g) {c : Chain} {n : Nat}
    (hoperand : ∀ {room : Nat} {ts : List Token}, ts.length < n →
      read c.operand room (ts.map (Token.mapSpan g)) = mapReading g (read c.operand room ts))
    (hn : ts.length ≤ n) (left : Expr) :
    readChain c room (left.mapSpan g) (ts.map (Token.mapSpan g)) = mapReading g (readChain c room left ts) := by
  induction room generalizing ts left with
  | zero =>
    rcases forall_head?_or_exists_op c ts with hstop | ⟨t, op, us, rfl, hop⟩
    · exact readChain_mapSpan_of_head? left hstop
    · rw [readChain_zero left hop]
      exact readChain_zero (left.mapSpan g) hop
  | succ room ih =>
    rcases forall_head?_or_exists_op c ts with hstop | ⟨t, op, us, rfl, hop⟩
    · exact readChain_mapSpan_of_head? left hstop
    have hop' : c.op? (t.mapSpan g).kind = some op := hop
    rw [readChain_succ left hop, List.map_cons, readChain_succ (left.mapSpan g) hop', hoperand hn]
    refine (mapReading_bind fun right rest hright => ?_).symm
    have hlt := length_lt_of_read hright
    rw [List.length_cons] at hn
    have hrest : rest.length ≤ n := by omega
    rw [← mapSpan_operate hg]
    exact (ih hrest (operate left op right)).symm

theorem readPower_mapSpan (hg : Span.Distributes g) {n : Nat}
    (hfactor : ∀ {room : Nat} {ts : List Token}, ts.length < n →
      read .factor room (ts.map (Token.mapSpan g)) = mapReading g (read .factor room ts))
    (hn : ts.length ≤ n) (base : Expr) :
    readPower room (base.mapSpan g) (ts.map (Token.mapSpan g)) = mapReading g (readPower room base ts) := by
  rcases ts with _ | ⟨⟨kind, s⟩, ts⟩
  · rw [List.map_nil, readPower_nil, readPower_nil]
    rfl
  by_cases hk : kind = .caret
  · subst hk
    cases room with
    | zero =>
      rw [readPower_zero, List.map_cons]
      exact readPower_zero _ _
    | succ room =>
      rw [readPower_succ, mapReading_map (mapSpan_operate hg base .pow), ← hfactor hn, List.map_cons]
      exact readPower_succ _ _
  · rw [readPower_of_ne_caret base hk, List.map_cons, readPower_of_ne_caret _ hk]
    rfl

end

/-- Reading relocated tokens, seen from a bound on what the reader has left to do. -/
theorem read_mapSpan_of_lt {g : Span → Span} (hg : Span.Distributes g) (n : Nat) {rule : Rule} {room : Nat}
    {ts : List Token} (hn : 6 * ts.length + rule.rank < n) :
    read rule room (ts.map (Token.mapSpan g)) = mapReading g (read rule room ts) := by
  induction n generalizing rule room ts with
  | zero => omega
  | succ n ih =>
    cases rule with
    | expression =>
      cases front ts with
      | declaration k name s nameSpan s' us =>
        simp only [List.length_cons] at hn
        rw [read_declaration, mapReading_map (mapSpan_declare hg k name nameSpan), ← ih (by omega)]
        exact read_declaration k (g s) (g nameSpan) (g s') name
      | noEquals k name s nameSpan us hne =>
        rw [read_expression_of_noEquals k name s nameSpan hne]
        exact read_expression_of_noEquals k name (g s) (g nameSpan) (by simpa using hne)
      | noName k s us hne =>
        rw [read_expression_of_noName k s hne]
        exact read_expression_of_noName k (g s) (by simpa using hne)
      | operand t us hstart =>
        rw [read_expression_of_startsOperand hstart, ← ih (by simp only [Rule.rank] at *; omega)]
        exact read_expression_of_startsOperand hstart
      | nothing _ hstart =>
        rw [read_expression_of_nothing hstart]
        exact read_expression_of_nothing (by simpa using hstart)
    | chain c =>
      have hrank := c.rank_operand_lt
      rw [read_chain, read_chain, ih (by omega)]
      refine (mapReading_bind fun left rest hleft => ?_).symm
      have hlt := length_lt_of_read hleft
      exact (readChain_mapSpan hg (n := rest.length) (fun hlen => ih (by omega)) (Nat.le_refl _) left).symm
    | factor =>
      rcases ts with _ | ⟨t, ts⟩
      · rw [List.map_nil, read_factor_nil, ← ih (by simp only [Rule.rank] at *; omega)]
        rfl
      cases hop : t.kind.sign? with
      | none =>
        rw [read_factor_of_sign?_eq_none hop, ← ih (by simp only [Rule.rank] at *; omega)]
        exact read_factor_of_sign?_eq_none hop
      | some op =>
        cases room with
        | zero =>
          rw [read_factor_zero hop]
          exact read_factor_zero hop
        | succ room =>
          rw [List.length_cons] at hn
          rw [read_factor_succ hop, mapReading_map (mapSpan_sign hg op t.span), ← ih (by omega)]
          exact read_factor_succ hop
    | power =>
      rw [read_power, read_power, ih (by simp only [Rule.rank] at *; omega)]
      refine (mapReading_bind fun base rest hbase => ?_).symm
      have hlt := length_lt_of_read hbase
      exact (readPower_mapSpan hg (n := rest.length) (fun hlen => ih (by simp only [Rule.rank] at *; omega))
        (Nat.le_refl _) base).symm
    | atom =>
      rcases ts with _ | ⟨⟨kind, s⟩, ts⟩
      · rw [List.map_nil, read_atom_nil]
        rfl
      cases kind with
      | number m => rw [read_number, List.map_cons]; exact read_number m (g s)
      | identifier name => rw [read_identifier, List.map_cons]; exact read_identifier name (g s)
      | leftParen =>
        cases room with
        | zero =>
          rw [read_leftParen_zero]
          exact read_leftParen_zero (g s)
        | succ room =>
          simp only [List.length_cons, Rule.rank] at hn
          refine (read_leftParen_succ (g s)).trans ?_
          rw [read_leftParen_succ, ih (by simp only [Rule.rank]; omega)]
          refine (mapReading_bind fun inner rest _ => ?_).symm
          rcases rest with _ | ⟨⟨kind, s'⟩, rest⟩
          · rfl
          · cases kind <;> rfl
      | _ =>
        rw [List.map_cons, read_atom_of_nothing (by simp [Rule.starts, startsOperand, Token.Kind.sign?]),
          read_atom_of_nothing (by simp [Rule.starts, startsOperand, Token.Kind.sign?])]
        rfl

section

variable {g : Span → Span} (hg : Span.Distributes g)
include hg

/-- **The reader does not look at spans**, whatever is done to them. -/
theorem read_mapSpan (rule : Rule) (room : Nat) (ts : List Token) :
    read rule room (ts.map (Token.mapSpan g)) = mapReading g (read rule room ts) :=
  read_mapSpan_of_lt hg _ (Nat.lt_succ_self _)

/-- A body that is relocated with its end comes to the same tree, or to the same diagnostic, relocated with it. -/
theorem ofBody_mapSpan (ts : List Token) (stop : Span) : ofBody (ts.map (Token.mapSpan g)) (g stop) =
    ((ofBody ts stop).map (mapSpan g)).mapError (Diagnostic.mapSpan g) := by
  unfold ofBody
  rw [read_mapSpan hg]
  rcases read .expression maxDepth ts with ⟨problem, _ | ⟨t, rest⟩⟩ | ⟨tree, _ | ⟨t, rest⟩⟩ <;> rfl

end

end Expr

end Reckoner
