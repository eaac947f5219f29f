import Reckoner.Proofs.Evaluation.Names

/-!
# Where an evaluation fails

An evaluation that has no value ends at one node: the nodes before it in postorder have values, and its own operation
has none (`Expr.FailsAt`). What is reported is a problem of that node, at a span of the tree (`Expr.Blames`), and with
the frames of the context, the outermost first: each has the position at which the next one was entered, and the
innermost that of the problem (`Context.map_position_frames`).

`Expr.Reaches` says which nodes an evaluation comes to, and in which scopes.
-/

namespace Reckoner

/-! ## The faults of an operation -/

theorem Number.ofInt_eq_error {n : Int} {fault : Fault} (h : ofInt n = .error fault) : fault = .overflow := by
  unfold ofInt at h
  split at h <;> cases h
  rfl

theorem Number.ofFloat_eq_error {x : Float} {fault : Fault} (h : ofFloat x = .error fault) : fault = .overflow := by
  unfold ofFloat at h
  split at h <;> cases h
  rfl

/-- Only `/` and `^` divide, and only `^` has results that are not real. -/
theorem Op.apply_eq_error {op : Op} {a b : Number} {fault : Number.Fault} (h : op.apply a b = .error fault) :
    fault = .overflow ∨ fault = .divisionByZero ∧ (op = div ∨ op = pow) ∨ fault = .notReal ∧ op = pow := by
  cases op with
  | add | sub | mul =>
    refine Or.inl ?_
    simp only [apply, Number.add, Number.sub, Number.mul] at h
    split at h
    · exact Number.ofInt_eq_error h
    · exact Number.ofFloat_eq_error h
  | div =>
    simp only [apply, Number.div] at h
    split at h <;> cases h
    exact Or.inr (Or.inl ⟨rfl, Or.inl rfl⟩)
  | pow => cases fault <;> simp

/-! ## Nodes to blame -/

namespace Expr

variable {context : Context}

/-- The problems that a node has of its own, each with the node at whose span it is reported. -/
inductive Blames : Expr → RuntimeProblem → Expr → Prop
  | undefined (name : String) (span : Span) : Blames (access name span) (.undefined name) (access name span)
  | divisionByZero (left : Expr) {op : Op} (right : Expr) (span : Span) : op = .div ∨ op = .pow →
      Blames (binary left op right span) (.arithmetic .divisionByZero) right
  | negation (operand : Expr) (span : Span) :
      Blames (unary .minus operand span) (.arithmetic .overflow) (unary .minus operand span)
  | overflow (left : Expr) (op : Op) (right : Expr) (span : Span) :
      Blames (binary left op right span) (.arithmetic .overflow) (binary left op right span)
  | notReal (left right : Expr) (span : Span) :
      Blames (binary left .pow right span) (.arithmetic .notReal) (binary left .pow right span)

/-- A problem is reported at the node that has it, or at one below. -/
theorem Blames.mem_nodes {node place : Expr} {problem : RuntimeProblem} (h : node.Blames problem place) :
    place ∈ node.nodes := by
  cases h with
  | divisionByZero => exact List.mem_cons_of_mem _ (List.mem_append_right _ (mem_nodes_self _))
  | undefined | negation | overflow | notReal => exact mem_nodes_self _

/-- The diagnostic is about a problem that the node has of its own. -/
def Reports (context : Context) (node : Expr) (d : Diagnostic) : Prop :=
  ∃ problem place, node.Blames problem place ∧ d = .ofRuntime problem place.span context

theorem reports_of_apply {left right : Expr} {op : Op} {span : Span} {a b : Number} {d : Diagnostic}
    (h : op.evaluate context a b right.span span = .error d) : (binary left op right span).Reports context d := by
  unfold Op.evaluate at h
  rcases happly : op.apply a b with fault | n <;> rw [happly] at h
  · obtain rfl | ⟨rfl, hop⟩ | ⟨rfl, rfl⟩ := Op.apply_eq_error happly <;> cases h
    · exact ⟨_, _, .overflow left op right span, rfl⟩
    · exact ⟨_, _, .divisionByZero left right span hop, rfl⟩
    · exact ⟨_, _, .notReal left right span, rfl⟩
  · cases h

theorem reports_of_sign {operand : Expr} {op : Sign} {span : Span} {v : Value} {d : Diagnostic}
    (h : op.evaluate context v operand.span span = .error d) : (unary op operand span).Reports context d := by
  cases op with
  | plus => cases h
  | minus =>
    simp only [Sign.evaluate, Op.evaluate] at h
    rcases happly : Op.mul.apply v.number (.int (-1)) with fault | n <;> rw [happly] at h
    · obtain rfl | ⟨-, hop⟩ | ⟨-, hop⟩ := Op.apply_eq_error happly
      · cases h
        exact ⟨_, _, .negation operand span, rfl⟩
      · simp at hop
      · cases hop
    · cases h

/-! ## Nodes that are reached -/

/-- The evaluation of a tree in a scope comes to that of a node in a scope. -/
inductive Reaches (context : Context) : Expr → Scope → Expr → Scope → Prop
  | self (e : Expr) (s : Scope) : Reaches context e s e s
  | operand {e node : Expr} {s t : Scope} (op : Sign) (span : Span) :
      Reaches context e s node t → Reaches context (unary op e span) s node t
  | left {left node : Expr} {s t : Scope} (op : Op) (right : Expr) (span : Span) :
      Reaches context left s node t → Reaches context (binary left op right span) s node t
  | right {left right node : Expr} {s s' t : Scope} {a : Value} (op : Op) (span : Span) :
      left.evaluate context s = (.ok a, s') → Reaches context right s' node t →
      Reaches context (binary left op right span) s node t
  | value {e node : Expr} {s t : Scope} (k : Keyword) (name : String) (span : Span) :
      Reaches context e s node t → Reaches context (assign k name e span) s node t

theorem Reaches.mem_nodes {e node : Expr} {s t : Scope} (h : Reaches context e s node t) : node ∈ e.nodes := by
  induction h with
  | self e s => exact mem_nodes_self e
  | operand _ _ _ ih | value _ _ _ _ ih => exact List.mem_cons_of_mem _ ih
  | left _ _ _ _ ih => exact List.mem_cons_of_mem _ (List.mem_append_left _ ih)
  | right _ _ _ _ ih => exact List.mem_cons_of_mem _ (List.mem_append_right _ ih)

theorem mem_valued_iff {e : Expr} {o : Outcome Value} {b : Expr × Value} :
    b ∈ e.valued o ↔ b.1 = e ∧ o = .ok b.2 := by
  obtain ⟨node, v⟩ := b
  cases o <;> simp [valued, eq_comm]

/-- A node that gets a value is reached, and has that value there. -/
theorem exists_reaches_of_mem_trace {e : Expr} {s : Scope} {b : Expr × Value} (h : b ∈ e.trace context s) :
    ∃ t, Reaches context e s b.1 t ∧ (b.1.evaluate context t).1 = .ok b.2 := by
  have hself {e : Expr} {s : Scope} (h : b ∈ e.valued (e.evaluate context s).1) :
      ∃ t, Reaches context e s b.1 t ∧ (b.1.evaluate context t).1 = .ok b.2 := by
    obtain ⟨rfl, hv⟩ := mem_valued_iff.mp h
    exact ⟨s, .self _ s, hv⟩
  induction e generalizing s with
  | literal n span => exact hself h
  | access name span => exact hself h
  | unary op operand span ih =>
    rw [trace, List.mem_append] at h
    rcases h with h | h
    · obtain ⟨t, hreaches, hv⟩ := ih h
      exact ⟨t, .operand op span hreaches, hv⟩
    · exact hself h
  | binary left op right span ihl ihr =>
    rcases hleft : left.evaluate context s with ⟨d | a, s'⟩
    · rw [trace_binary_of_error hleft] at h
      obtain ⟨t, hreaches, hv⟩ := ihl h
      exact ⟨t, .left op right span hreaches, hv⟩
    · rw [trace_binary_of_ok hleft, List.mem_append, List.mem_append] at h
      rcases h with (h | h) | h
      · obtain ⟨t, hreaches, hv⟩ := ihl h
        exact ⟨t, .left op right span hreaches, hv⟩
      · obtain ⟨t, hreaches, hv⟩ := ihr h
        exact ⟨t, .right op span hleft hreaches, hv⟩
      · exact hself h
  | assign k name value span ih =>
    rw [trace, List.mem_append] at h
    rcases h with h | h
    · obtain ⟨t, hreaches, hv⟩ := ih h
      exact ⟨t, .value k name span hreaches, hv⟩
    · exact hself h

/-! ## The node where an evaluation fails -/

/-- The evaluation of `e` in `s` fails with `d` at `node`, a node of `e`: all nodes before it in postorder get values,
and it is reached and fails with `d` there. -/
structure FailsAt (context : Context) (e : Expr) (s : Scope) (d : Diagnostic) (node : Expr) : Prop where
  nodes_subset : node.nodes ⊆ e.nodes
  postorder : ∃ rest, e.postorder = (e.trace context s).map Prod.fst ++ node :: rest
  reached : ∃ t, Reaches context e s node t ∧ (node.evaluate context t).1 = .error d

section

variable {e operand : Expr} {s s' : Scope} {d : Diagnostic} {node : Expr}

/-- A node that fails itself, when all its operands have values. -/
theorem failsAt_self (h : (e.evaluate context s).1 = .error d)
    (hpostorder : e.postorder = (e.trace context s).map Prod.fst ++ [e]) : FailsAt context e s d e :=
  ⟨List.Subset.refl _, ⟨[], hpostorder⟩, ⟨s, .self e s, h⟩⟩

/-- A node of which an operand fails, where the nodes `done` are evaluated before the operand. -/
theorem FailsAt.of_operand (h : FailsAt context operand s' d node) (done : List (Expr × Value)) (more : List Expr)
    (hnodes : operand.nodes ⊆ e.nodes) (hpostorder : e.postorder = done.map Prod.fst ++ operand.postorder ++ more)
    (htrace : e.trace context s = done ++ operand.trace context s')
    (hreaches : ∀ t, Reaches context operand s' node t → Reaches context e s node t) :
    FailsAt context e s d node := by
  obtain ⟨hsubset, ⟨rest, hrest⟩, ⟨t, hreached, hfails⟩⟩ := h
  refine ⟨List.Subset.trans hsubset hnodes, ⟨rest ++ more, ?_⟩, ⟨t, hreaches t hreached, hfails⟩⟩
  rw [hpostorder, htrace, hrest]
  simp

end

/-- An evaluation that fails does so at a node, with a problem of that node. -/
theorem exists_failsAt {e : Expr} {s : Scope} {d : Diagnostic} (h : (e.evaluate context s).1 = .error d) :
    ∃ node, FailsAt context e s d node ∧ node.Reports context d := by
  induction e generalizing s with
  | literal n span => cases h
  | access name span =>
    cases hlookup : s.lookup? name with
    | some v =>
      rw [evaluate_access_of_some hlookup] at h
      cases h
    | none =>
      have hfails := h
      rw [evaluate_access_of_none hlookup] at h
      cases h
      refine ⟨_, failsAt_self hfails ?_, _, _, .undefined name span, rfl⟩
      rw [trace, hfails]
      rfl
  | unary op operand span ih =>
    rcases hoperand : operand.evaluate context s with ⟨d' | v, s'⟩
    · rw [evaluate_unary_of_error op hoperand] at h
      obtain ⟨node, hnode, hreports⟩ := ih (s := s) (by rw [hoperand]; exact h)
      refine ⟨node, hnode.of_operand [] [unary op operand span] ?_ rfl ?_ fun t => .operand op span, hreports⟩
      · exact List.subset_cons_self _ _
      · rw [trace, evaluate_unary_of_error op hoperand]
        exact List.append_nil _
    · have hdone := map_fst_trace_of_ok (congrArg Prod.fst hoperand)
      have hfails := h
      rw [evaluate_unary_of_ok op hoperand] at h
      refine ⟨_, failsAt_self hfails ?_, reports_of_sign h⟩
      rw [trace, hfails, valued, List.append_nil, hdone]
      rfl
  | binary left op right span ihl ihr =>
    rcases hleft : left.evaluate context s with ⟨d' | a, s'⟩
    · rw [evaluate_binary_of_left_error hleft] at h
      obtain ⟨node, hnode, hreports⟩ := ihl (s := s) (by rw [hleft]; exact h)
      refine ⟨node, hnode.of_operand [] (right.postorder ++ [binary left op right span]) ?_ ?_
        (trace_binary_of_error hleft) fun t => .left op right span, hreports⟩
      · exact fun n hn => List.mem_cons_of_mem _ (List.mem_append_left _ hn)
      · rw [Expr.postorder, List.append_assoc]
        rfl
    · have hdone := map_fst_trace_of_ok (congrArg Prod.fst hleft)
      rcases hright : right.evaluate context s' with ⟨d' | b, s''⟩
      · rw [evaluate_binary_of_right_error hleft hright] at h
        obtain ⟨node, hnode, hreports⟩ := ihr (s := s') (by rw [hright]; exact h)
        refine ⟨node, hnode.of_operand (left.trace context s) [binary left op right span] ?_ ?_ ?_
          fun t => .right op span hleft, hreports⟩
        · exact fun n hn => List.mem_cons_of_mem _ (List.mem_append_right _ hn)
        · rw [hdone]
          rfl
        · rw [trace_binary_of_ok hleft, evaluate_binary_of_right_error hleft hright]
          exact List.append_nil _
      · have hdone' := map_fst_trace_of_ok (congrArg Prod.fst hright)
        have hfails := h
        rw [evaluate_binary_of_ok hleft hright] at h
        refine ⟨_, failsAt_self hfails ?_, reports_of_apply h⟩
        rw [trace_binary_of_ok hleft, hfails, valued, List.append_nil, List.map_append, hdone, hdone']
        rfl
  | assign k name value span ih =>
    rcases hvalue : value.evaluate context s with ⟨d' | v, s'⟩
    · rw [evaluate_assign_of_error k hvalue] at h
      obtain ⟨node, hnode, hreports⟩ := ih (s := s) (by rw [hvalue]; exact h)
      refine ⟨node, hnode.of_operand [] [assign k name value span] ?_ rfl ?_ fun t => .value k name span, hreports⟩
      · exact List.subset_cons_self _ _
      · rw [trace, evaluate_assign_of_error k hvalue]
        exact List.append_nil _
    · rw [evaluate_assign_of_ok k hvalue] at h
      cases h

end Expr

/-! ## Frames -/

namespace Context

/-- The context and those it was entered from, the outermost first. -/
def chain : Context → List Context
  | root n => [root n]
  | child p n at? => p.chain ++ [child p n at?]

theorem chain_ne_nil (c : Context) : c.chain ≠ [] := by
  cases c <;> simp [chain]

/-- There is a frame for each context. -/
theorem map_name_frames (c : Context) (position : Option Position) :
    (c.frames position).map Frame.name = c.chain.map Context.name := by
  induction c generalizing position with
  | root n => rfl
  | child p n at? ih =>
    rw [frames, chain, List.map_append, List.map_append, ih]
    rfl

/-- Each frame has the position at which the next one was entered, and the innermost that where execution stands. -/
theorem map_position_frames (c : Context) (position : Option Position) :
    (c.frames position).map Frame.position = c.chain.tail.map entry? ++ [position] := by
  induction c generalizing position with
  | root n => rfl
  | child p n at? ih =>
    rw [frames, chain, List.map_append, ih, List.tail_append_of_ne_nil p.chain_ne_nil, List.map_append]
    rfl

end Context

namespace Expr

/-- **Problems are located and traced.** An evaluation without a value ends at a node of the tree whose own operation
has the problem, and all nodes before it in postorder have values. What is reported is that problem, at the span of a
node of the tree: an access to an unbound name, the right operand of a division by zero, and else the operation. The
frames are those of the context, the outermost first, each at the position where the next one was entered, and the
innermost at the span's start. Where the values of names come from makes no difference to any of this. -/
theorem evaluate_eq_error {context : Context} {e : Expr} {s : Scope} {d : Diagnostic}
    (h : (e.evaluate context s).1 = .error d) :
    (∃ node place problem, FailsAt context e s d node ∧ node.Blames problem place ∧ place ∈ e.nodes ∧
      d.problem = .runtime problem ∧ d.span = place.span) ∧
    (∀ b ∈ e.trace context s, ∃ t, Reaches context e s b.1 t ∧ (b.1.evaluate context t).1 = .ok b.2) ∧
    (∃ frames, d.traceback = some frames ∧ frames.map Frame.name = context.chain.map Context.name ∧
      frames.map Frame.position = context.chain.tail.map Context.entry? ++ [some d.span.start]) ∧
    ∀ s' : Scope, s'.AgreesOn s e.namesRead → (e.evaluate context s').1 = .error d := by
  obtain ⟨node, hnode, problem, place, hblames, rfl⟩ := exists_failsAt h
  refine ⟨⟨node, place, problem, hnode, hblames, hnode.nodes_subset hblames.mem_nodes, rfl, rfl⟩, ?_, ?_, ?_⟩
  · exact fun b hb => exists_reaches_of_mem_trace hb
  · exact ⟨_, rfl, context.map_name_frames _, context.map_position_frames _⟩
  · exact fun s' hs' => (evaluate_congr hs').1.trans h

/-- The tree of `x / (x - 2)`. -/
def quotient : Expr :=
  binary (access "x" (column 0)) .div (binary (access "x" (column 1)) .sub (literal (.int 2) (column 2)) (column 3))
    (column 4)

/-- A frame of which the entry is lost, inside of one that was entered from the outermost. -/
def innerFrame : Context :=
  .child (.child (.root "<module>") "f" (some (column 5).start)) "g" none

/-- Where `x` is two, the divisor is to blame, at its own span and not at that of the value of `x`. -/
theorem evaluate_eq_error_quotient :
    let s : Scope := { own := (∅ : Table).insert "x" ⟨.int 2, some (column 6)⟩ }
    ∃ d, (quotient.evaluate innerFrame s).1 = .error d ∧ d.problem = .runtime (.arithmetic .divisionByZero) ∧
      d.span = column 3 ∧
      ∃ frames, d.traceback = some frames ∧ frames.map Frame.name = ["<module>", "f", "g"] ∧
        frames.map Frame.position = [some (column 5).start, none, some (column 3).start] := by
  intro s
  have h : (quotient.evaluate innerFrame s).1 =
      .error (.ofRuntime (.arithmetic .divisionByZero) (column 3) innerFrame) := rfl
  obtain ⟨-, -, hframes, -⟩ := evaluate_eq_error h
  exact ⟨_, h, rfl, rfl, hframes⟩

end Expr

end Reckoner
