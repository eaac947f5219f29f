import Reckoner.Evaluation

/-!
# Evaluations that go alike

An evaluation passes the places of values on without looking at them, and so it does with the frames of its context. Of
its scope it sees what each name is found to be, but not in which table.

Let `R` relate places. Trees of the same shape with their nodes at related places (`Expr.Alike`), evaluated in scopes
where each name is found to have alike values (`Scope.Alike`), have alike outcomes, and leave scopes that are alike
again (`Expr.Alike.evaluate`). The contexts may be any two: they are seen in the tracebacks only.
-/

namespace Reckoner

/-- The same number, from related places. -/
structure Value.Alike (R : Option Span → Option Span → Prop) (v v' : Value) : Prop where
  number : v.number = v'.number
  span : R v.span v'.span

/-- A name has alike values in both scopes, or is unbound in both. -/
def Scope.Alike (R : Option Span → Option Span → Prop) (s s' : Scope) : Prop :=
  ∀ name, Option.Rel (Value.Alike R) (s.lookup? name) (s'.lookup? name)

/-- Trees that differ in their spans only, each span being related to the one in its place. -/
inductive Expr.Alike (R : Option Span → Option Span → Prop) : Expr → Expr → Prop
  | literal {span span' : Span} (value : Number) : R span span' → Alike R (literal value span) (literal value span')
  | access {span span' : Span} (name : String) : R span span' → Alike R (access name span) (access name span')
  | unary {operand operand' : Expr} {span span' : Span} (op : Sign) :
      R span span' → Alike R operand operand' → Alike R (unary op operand span) (unary op operand' span')
  | binary {left left' right right' : Expr} {span span' : Span} (op : Op) :
      R span span' → Alike R left left' → Alike R right right' →
      Alike R (binary left op right span) (binary left' op right' span')
  | assign {value value' : Expr} {span span' : Span} (k : Keyword) (name : String) :
      R span span' → Alike R value value' → Alike R (assign k name value span) (assign k name value' span')

/-- Alike values, or the same problem at related places, each in its own context. -/
inductive Outcome.Alike (R : Option Span → Option Span → Prop) (c c' : Context) :
    Outcome Value → Outcome Value → Prop
  | ok {v v' : Value} : v.Alike R v' → Alike R c c' (.ok v) (.ok v')
  | error {span span' : Span} (problem : RuntimeProblem) :
      R span span' → Alike R c c' (.error (.ofRuntime problem span c)) (.error (.ofRuntime problem span' c'))

variable {R : Option Span → Option Span → Prop} {c c' : Context}

theorem Value.alike_refl (hR : ∀ s, R s s) (v : Value) : v.Alike R v :=
  ⟨rfl, hR _⟩

theorem Value.alike_eq_iff {v v' : Value} : v.Alike Eq v' ↔ v = v' := by
  constructor
  · rintro ⟨hnumber, hspan⟩
    cases v
    cases v'
    exact Value.mk.injEq _ _ _ _ ▸ ⟨hnumber, hspan⟩
  · rintro rfl
    exact v.alike_refl fun _ => rfl

theorem Value.Alike.tag {v v' : Value} {span span' : Span} (h : v.Alike R v') (hspan : R span span') :
    (v.tag span).Alike R (v'.tag span') :=
  ⟨h.number, hspan⟩

theorem Expr.alike_refl (hR : ∀ s, R s s) (e : Expr) : e.Alike R e := by
  induction e with
  | literal value span => exact .literal value (hR _)
  | access name span => exact .access name (hR _)
  | unary op operand span ih => exact .unary op (hR _) ih
  | binary left op right span ihl ihr => exact .binary op (hR _) ihl ihr
  | assign k name value span ih => exact .assign k name (hR _) ih

theorem Expr.Alike.span {e e' : Expr} (h : e.Alike R e') : R e.span e'.span := by
  cases h <;> assumption

/-- The name that was assigned has the new values, and every other name those it had. -/
theorem Scope.Alike.assign {s s' : Scope} {v v' : Value} (hs : s.Alike R s') (name : String) (hv : v.Alike R v') :
    (s.assign name v).Alike R (s'.assign name v') := by
  intro x
  rw [lookup?_assign, lookup?_assign]
  split
  · exact .some hv
  · exact hs x

theorem Op.evaluate_alike {right right' span span' : Span} (op : Op) (a b : Number) (hright : R right right')
    (hspan : R span span') : Outcome.Alike R c c' (op.evaluate c a b right span) (op.evaluate c' a b right' span') := by
  unfold Op.evaluate
  rcases op.apply a b with fault | n
  · cases fault with
    | divisionByZero => exact .error _ hright
    | overflow | notReal => exact .error _ hspan
  · exact .ok ⟨rfl, hspan⟩

theorem Sign.evaluate_alike {v v' : Value} {operand operand' span span' : Span} (op : Sign) (hv : v.Alike R v')
    (hoperand : R operand operand') (hspan : R span span') :
    Outcome.Alike R c c' (op.evaluate c v operand span) (op.evaluate c' v' operand' span') := by
  cases op with
  | plus => exact .ok (hv.tag hspan)
  | minus =>
    rw [Sign.evaluate, hv.number]
    exact Op.evaluate_alike .mul v'.number (.int (-1)) hoperand hspan

/-- **Alike trees in alike scopes** have alike outcomes, and leave alike scopes behind. -/
theorem Expr.Alike.evaluate (c c' : Context) {e e' : Expr} {s s' : Scope} (he : e.Alike R e') (hs : s.Alike R s') :
    Outcome.Alike R c c' (e.evaluate c s).1 (e'.evaluate c' s').1 ∧
      (e.evaluate c s).2.Alike R (e'.evaluate c' s').2 := by
  induction he generalizing s s' with
  | literal value hspan => exact ⟨.ok ⟨rfl, hspan⟩, hs⟩
  | @access span span' name hspan =>
    have hname := hs name
    unfold Expr.evaluate
    generalize s.lookup? name = found, s'.lookup? name = found' at hname
    cases hname with
    | none => exact ⟨.error _ hspan, hs⟩
    | some hv => exact ⟨.ok (hv.tag hspan), hs⟩
  | @unary operand operand' span span' op hspan hoperand ih =>
    obtain ⟨ho, hscope⟩ := ih hs
    unfold Expr.evaluate
    generalize operand.evaluate c s = r, operand'.evaluate c' s' = r' at ho hscope
    obtain ⟨o, t⟩ := r
    obtain ⟨o', t'⟩ := r'
    cases ho with
    | error problem hplace => exact ⟨.error problem hplace, hscope⟩
    | ok hv => exact ⟨op.evaluate_alike hv hoperand.span hspan, hscope⟩
  | @binary left left' right right' span span' op hspan hleft hright ihl ihr =>
    obtain ⟨hl, hmiddle⟩ := ihl hs
    unfold Expr.evaluate
    generalize left.evaluate c s = r, left'.evaluate c' s' = r' at hl hmiddle
    obtain ⟨o, t⟩ := r
    obtain ⟨o', t'⟩ := r'
    cases hl with
    | error problem hplace => exact ⟨.error problem hplace, hmiddle⟩
    | ok ha =>
      obtain ⟨hr, hscope⟩ := ihr hmiddle
      dsimp only at hr hscope ⊢
      generalize right.evaluate c t = r, right'.evaluate c' t' = r' at hr hscope
      obtain ⟨o, u⟩ := r
      obtain ⟨o', u'⟩ := r'
      cases hr with
      | error problem hplace => exact ⟨.error problem hplace, hscope⟩
      | ok hb =>
        dsimp only
        rw [ha.number, hb.number]
        exact ⟨op.evaluate_alike _ _ hright.span hspan, hscope⟩
  | @assign value value' span span' k name hspan hvalue ih =>
    obtain ⟨ho, hscope⟩ := ih hs
    unfold Expr.evaluate
    generalize value.evaluate c s = r, value'.evaluate c' s' = r' at ho hscope
    obtain ⟨o, t⟩ := r
    obtain ⟨o', t'⟩ := r'
    cases ho with
    | error problem hplace => exact ⟨.error problem hplace, hscope⟩
    | ok hv => exact ⟨.ok hv, hscope.assign name hv⟩

end Reckoner
