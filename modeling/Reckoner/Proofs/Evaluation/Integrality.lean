import Reckoner.Proofs.Evaluation.Blame
import Reckoner.Proofs.Number.Closure

/-!
# When a value is an integer

A value is an integer if nothing that it was computed from forces a double: no literal, no value that was read, no
quotient and no power with a negative exponent (`Expr.Integrally`). One of them anywhere in the tree does, so the value
is a double otherwise (`Expr.isInt_evaluate_iff`).

An evaluation that has a value comes to every node of the tree (`Expr.exists_reaches_of_mem_nodes`). So it is enough to
look at the nodes that are reached, each in its scope, and to ask which of them force a double by themselves
(`Expr.Forces`). The operands of a node answer for the nodes below it, and its operation for itself
(`Op.isInt_apply`).
-/

namespace Reckoner

namespace Number

def isInt : Number → Bool
  | int _ => true
  | float _ | signalingNaN => false

def isFloat : Number → Bool
  | int _ => false
  | float _ | signalingNaN => true

/-- A NaN is not negative, and neither is a zero. -/
def IsNegative : Number → Prop
  | int n => n < 0
  | float x => x < 0
  | signalingNaN => False

theorem isFloat_eq_not_isInt (a : Number) : a.isFloat = !a.isInt := by
  cases a <;> rfl

theorem isInt_of_ofFloat {x : Float} {n : Number} (h : ofFloat x = .ok n) : n.isInt = false := by
  unfold ofFloat at h
  split at h
  · cases h
  · cases h
    rfl

theorem isInt_of_powFloat {x y : Float} {n : Number} (h : powFloat x y = .ok n) : n.isInt = false := by
  simp only [powFloat] at h
  split at h
  · cases h
  · split at h
    · cases h
    · split at h
      · cases h
      · cases h
        rfl

theorem isInt_of_div {a b n : Number} (h : div a b = .ok n) : n.isInt = false := by
  unfold div at h
  split at h
  · cases h
  · cases h
    rfl

end Number

/-! ## Operations -/

namespace Op

variable {op : Op} {a b n : Number}

theorem staysInt_iff : op.staysInt a b = true ↔
    a.isInt = true ∧ b.isInt = true ∧ op ≠ div ∧ (op = pow → ¬ b.IsNegative) := by
  cases a <;> cases b <;> cases op <;> simp [staysInt, Number.isInt, Number.IsNegative]

/-- A power that does not stay among the integers is one of doubles. -/
theorem isInt_of_pow (h : pow.staysInt a b = false) (hn : pow.apply a b = .ok n) : n.isInt = false := by
  cases a with
  | signalingNaN =>
    cases hn
    rfl
  | float x =>
    cases b with
    | signalingNaN =>
      cases hn
      rfl
    | _ => exact Number.isInt_of_powFloat hn
  | int m =>
    cases b with
    | signalingNaN =>
      cases hn
      rfl
    | float y => exact Number.isInt_of_powFloat hn
    | int k =>
      have hk : ¬ 0 ≤ k := of_decide_eq_false h
      simp only [apply, Number.pow, if_neg hk] at hn
      exact Number.isInt_of_powFloat hn

/-- The result is an integer if and only if the operation stays among them. -/
theorem isInt_apply (hn : op.apply a b = .ok n) : n.isInt = op.staysInt a b := by
  cases h : op.staysInt a b with
  | true =>
    obtain ⟨i, rfl⟩ := apply_of_staysInt h hn
    rfl
  | false =>
    cases op with
    | pow => exact isInt_of_pow h hn
    | div => exact Number.isInt_of_div hn
    | add | sub | mul =>
      rw [apply_eq_ofFloat (by simp) h] at hn
      exact Number.isInt_of_ofFloat hn

/-- The value of an operation at a span has the number that the operation gives. -/
theorem apply_of_evaluate {context : Context} {right span : Span} {v : Value}
    (h : op.evaluate context a b right span = .ok v) : op.apply a b = .ok v.number := by
  unfold evaluate at h
  split at h
  · next m hm =>
    cases h
    exact hm
  · cases h
  · cases h

end Op

/-- A sign keeps an integer an integer and a double a double. -/
theorem Sign.isInt_evaluate {context : Context} {op : Sign} {v w : Value} {operand span : Span}
    (h : op.evaluate context v operand span = .ok w) : w.number.isInt = v.number.isInt := by
  cases op with
  | plus =>
    cases h
    rfl
  | minus =>
    rw [Op.isInt_apply (Op.apply_of_evaluate h), Bool.eq_iff_iff, Op.staysInt_iff]
    simp [Number.isInt]

/-! ## Nodes that force a double -/

namespace Expr

variable {context : Context}

/-- What the node reads or does makes its value a double, when it is evaluated in the scope. -/
inductive Forces (context : Context) : Expr → Scope → Prop
  | literal {n : Number} {t : Scope} (span : Span) : n.isInt = false → Forces context (literal n span) t
  | access {name : String} {t : Scope} {v : Value} (span : Span) : t.lookup? name = some v → v.number.isInt = false →
      Forces context (access name span) t
  | quotient (left right : Expr) (span : Span) (t : Scope) : Forces context (binary left .div right span) t
  | exponent {left right : Expr} {t t' : Scope} {a b : Value} (span : Span) : left.evaluate context t = (.ok a, t') →
      (right.evaluate context t').1 = .ok b → b.number.IsNegative → Forces context (binary left .pow right span) t

section

variable {e left right operand : Expr} {op : Op} {span : Span} {name : String}
variable {s s' s'' : Scope} {v a b : Value} {n : Number}

theorem forces_literal_iff : Forces context (literal n span) s ↔ n.isInt = false := by
  constructor
  · intro h
    cases h with
    | literal _ hn => exact hn
  · exact .literal span

theorem forces_access_iff (h : s.lookup? name = some v) :
    Forces context (access name span) s ↔ v.number.isInt = false := by
  constructor
  · intro hforces
    cases hforces with
    | access _ hw hint =>
      cases h.symm.trans hw
      exact hint
  · exact .access span h

theorem forces_binary_iff (hl : left.evaluate context s = (.ok a, s')) (hr : right.evaluate context s' = (.ok b, s'')) :
    Forces context (binary left op right span) s ↔ op = .div ∨ op = .pow ∧ b.number.IsNegative := by
  constructor
  · intro hforces
    cases hforces with
    | quotient => exact Or.inl rfl
    | exponent _ hl' hr' hneg =>
      cases hl.symm.trans hl'
      rw [hr] at hr'
      cases hr'
      exact Or.inr ⟨rfl, hneg⟩
  · rintro (rfl | ⟨rfl, hneg⟩)
    · exact .quotient left right span s
    · exact .exponent span hl (congrArg Prod.fst hr) hneg

end

/-! ## All nodes that are reached -/

section

variable {P : Expr → Scope → Prop} {e left right : Expr} {s s' : Scope} {a : Value}

theorem forall_reaches_unary (op : Sign) (span : Span) :
    (∀ node t, Reaches context (unary op e span) s node t → P node t) ↔
      P (unary op e span) s ∧ ∀ node t, Reaches context e s node t → P node t := by
  constructor
  · intro h
    exact ⟨h _ _ (.self _ _), fun node t hreaches => h node t (.operand op span hreaches)⟩
  · rintro ⟨hself, h⟩ node t hreaches
    cases hreaches with
    | self => exact hself
    | operand _ _ hoperand => exact h node t hoperand

theorem forall_reaches_assign (k : Keyword) (name : String) (span : Span) :
    (∀ node t, Reaches context (assign k name e span) s node t → P node t) ↔
      P (assign k name e span) s ∧ ∀ node t, Reaches context e s node t → P node t := by
  constructor
  · intro h
    exact ⟨h _ _ (.self _ _), fun node t hreaches => h node t (.value k name span hreaches)⟩
  · rintro ⟨hself, h⟩ node t hreaches
    cases hreaches with
    | self => exact hself
    | value _ _ _ hvalue => exact h node t hvalue

/-- The right operand is reached behind the left one. -/
theorem forall_reaches_binary (op : Op) (span : Span) (hl : left.evaluate context s = (.ok a, s')) :
    (∀ node t, Reaches context (binary left op right span) s node t → P node t) ↔
      P (binary left op right span) s ∧ (∀ node t, Reaches context left s node t → P node t) ∧
        ∀ node t, Reaches context right s' node t → P node t := by
  constructor
  · intro h
    exact ⟨h _ _ (.self _ _), fun node t hreaches => h node t (.left op right span hreaches),
      fun node t hreaches => h node t (.right op span hl hreaches)⟩
  · rintro ⟨hself, hleft, hright⟩ node t hreaches
    cases hreaches with
    | self => exact hself
    | left _ _ _ hreaches => exact hleft node t hreaches
    | right _ _ hl' hreaches =>
      cases hl.symm.trans hl'
      exact hright node t hreaches

end

section

variable {e node : Expr} {s t : Scope} {v : Value}

/-- An evaluation that has a value comes to every node. -/
theorem exists_reaches_of_mem_nodes (h : (e.evaluate context s).1 = .ok v) (hnode : node ∈ e.nodes) :
    ∃ t, Reaches context e s node t := by
  induction e generalizing s v with
  | literal n span | access name span =>
    cases List.mem_singleton.mp hnode
    exact ⟨s, .self _ _⟩
  | unary op operand span ih =>
    rcases List.mem_cons.mp hnode with rfl | hnode
    · exact ⟨s, .self _ _⟩
    · rw [outcome_unary] at h
      obtain ⟨w, hw, -⟩ := Except.bind_eq_ok_iff.mp h
      obtain ⟨t, ht⟩ := ih hw hnode
      exact ⟨t, .operand op span ht⟩
  | binary left op right span ihl ihr =>
    rcases List.mem_cons.mp hnode with rfl | hnode
    · exact ⟨s, .self _ _⟩
    · rw [outcome_binary] at h
      obtain ⟨a, ha, hrest⟩ := Except.bind_eq_ok_iff.mp h
      obtain ⟨b, hb, -⟩ := Except.bind_eq_ok_iff.mp hrest
      rcases List.mem_append.mp hnode with hnode | hnode
      · obtain ⟨t, ht⟩ := ihl ha hnode
        exact ⟨t, .left op right span ht⟩
      · obtain ⟨t, ht⟩ := ihr hb hnode
        exact ⟨t, .right op span (Prod.ext ha rfl) ht⟩
  | assign k name value span ih =>
    rcases List.mem_cons.mp hnode with rfl | hnode
    · exact ⟨s, .self _ _⟩
    · rw [outcome_assign] at h
      obtain ⟨t, ht⟩ := ih h hnode
      exact ⟨t, .value k name span ht⟩

end

/-! ## The value of a tree -/

/-- Nothing in the tree forces a double when it is evaluated in the scope: neither a literal, nor a value that is read,
as it is when it is read, nor a quotient, nor a power whose exponent has come to a negative number. -/
structure Integrally (context : Context) (e : Expr) (s : Scope) : Prop where
  literals : ∀ n span, literal n span ∈ e.nodes → n.isInt = true
  reads : ∀ name span t v, Reaches context e s (access name span) t → t.lookup? name = some v → v.number.isInt = true
  quotients : ∀ left right span, binary left .div right span ∉ e.nodes
  exponents : ∀ left right span t t' a b, Reaches context e s (binary left .pow right span) t →
    left.evaluate context t = (.ok a, t') → (right.evaluate context t').1 = .ok b → ¬ b.number.IsNegative

section

variable {e : Expr} {s : Scope} {v : Value}

theorem integrally_iff (h : (e.evaluate context s).1 = .ok v) :
    e.Integrally context s ↔ ∀ node t, Reaches context e s node t → ¬ Forces context node t := by
  constructor
  · intro hint node t hreaches hforces
    cases hforces with
    | literal span hn => simp [hint.literals _ span hreaches.mem_nodes] at hn
    | access span hw hn => simp [hint.reads _ span t _ hreaches hw] at hn
    | quotient left right span => exact hint.quotients left right span hreaches.mem_nodes
    | exponent span hl hr hneg => exact hint.exponents _ _ span _ _ _ _ hreaches hl hr hneg
  · intro hnone
    refine ⟨?_, ?_, ?_, ?_⟩
    · intro n span hmem
      obtain ⟨t, ht⟩ := exists_reaches_of_mem_nodes h hmem
      simpa [forces_literal_iff] using hnone _ t ht
    · intro name span t w hreaches hw
      simpa [forces_access_iff hw] using hnone _ t hreaches
    · intro left right span hmem
      obtain ⟨t, ht⟩ := exists_reaches_of_mem_nodes h hmem
      exact hnone _ t ht (.quotient left right span t)
    · intro left right span t t' a b hreaches hl hr hneg
      exact hnone _ t hreaches (.exponent span hl hr hneg)

/-- The value is an integer if and only if no node that is reached forces a double. -/
theorem isInt_iff_forall_reaches (h : (e.evaluate context s).1 = .ok v) :
    v.number.isInt = true ↔ ∀ node t, Reaches context e s node t → ¬ Forces context node t := by
  induction e generalizing s v with
  | literal n span =>
    cases h
    constructor
    · intro hn node t hreaches
      cases hreaches
      simpa [forces_literal_iff] using hn
    · intro hnone
      simpa [forces_literal_iff] using hnone _ s (.self _ _)
  | access name span =>
    cases hw : s.lookup? name with
    | none =>
      rw [evaluate_access_of_none hw] at h
      cases h
    | some w =>
      rw [evaluate_access_of_some hw] at h
      cases h
      change w.number.isInt = true ↔ _
      constructor
      · intro hn node t hreaches
        cases hreaches
        simpa [forces_access_iff hw] using hn
      · intro hnone
        simpa [forces_access_iff hw] using hnone _ s (.self _ _)
  | unary op operand span ih =>
    rw [outcome_unary] at h
    obtain ⟨w, hw, hv⟩ := Except.bind_eq_ok_iff.mp h
    have hself : ¬ Forces context (unary op operand span) s := nofun
    rw [forall_reaches_unary, Sign.isInt_evaluate hv, ih hw]
    exact (and_iff_right hself).symm
  | binary left op right span ihl ihr =>
    rcases hl : left.evaluate context s with ⟨d | a, s'⟩
    · rw [evaluate_binary_of_left_error hl] at h
      cases h
    · rcases hr : right.evaluate context s' with ⟨d | b, s''⟩
      · rw [evaluate_binary_of_right_error hl hr] at h
        cases h
      · rw [evaluate_binary_of_ok hl hr] at h
        rw [forall_reaches_binary op span hl, forces_binary_iff hl hr, ← ihl (congrArg Prod.fst hl),
          ← ihr (congrArg Prod.fst hr), Op.isInt_apply (Op.apply_of_evaluate h), Op.staysInt_iff]
        tauto
  | assign k name value span ih =>
    rw [outcome_assign] at h
    have hself : ¬ Forces context (assign k name value span) s := nofun
    rw [forall_reaches_assign, ih h]
    exact (and_iff_right hself).symm

/-- **The whole tree decides whether its value is an integer.** It is one if and only if all literals are, all values
that are read are when they are read, there is no quotient, and no exponent is negative; otherwise it is a double. -/
theorem isInt_evaluate_iff (h : (e.evaluate context s).1 = .ok v) :
    (v.number.isInt = true ↔ e.Integrally context s) ∧ (v.number.isFloat = true ↔ ¬ e.Integrally context s) := by
  rw [integrally_iff h, ← isInt_iff_forall_reaches h, Number.isFloat_eq_not_isInt]
  simp

end

/-- The tree of `(var x = 2) ^ x`. -/
def squared : Expr :=
  binary (assign .varKeyword "x" (literal (.int 2) (column 0)) (column 1)) .pow (access "x" (column 2)) (column 3)

/-- The tree of `+(4 / x)`. -/
def divided : Expr :=
  unary .plus (binary (literal (.int 4) (column 0)) .div (access "x" (column 1)) (column 2)) (column 3)

/-- Where `x` is a double, the first tree binds it to an integer before it reads it. The second one has integers only,
where `x` is one, and comes to a double. -/
theorem isInt_evaluate_iff_rebound :
    let context : Context := .root "<module>"
    let s : Scope := { own := (∅ : Table).insert "x" ⟨.float 0.5, some (column 4)⟩ }
    let s' : Scope := { own := (∅ : Table).insert "x" ⟨.int 2, some (column 4)⟩ }
    (squared.evaluate context s).1 = .ok ⟨.int 4, some (column 3)⟩ ∧ squared.Integrally context s ∧
      (divided.evaluate context s').1 = .ok ⟨.float 2, some (column 3)⟩ ∧ ¬ divided.Integrally context s' := by
  intro context s s'
  have hsquared : (squared.evaluate context s).1 = .ok ⟨.int 4, some (column 3)⟩ := by decide +kernel
  have hdivided : (divided.evaluate context s').1 = .ok ⟨.float 2, some (column 3)⟩ := by decide +kernel
  exact ⟨hsquared, (isInt_evaluate_iff hsquared).1.mp rfl, hdivided, (isInt_evaluate_iff hdivided).2.mp rfl⟩

end Expr

end Reckoner
