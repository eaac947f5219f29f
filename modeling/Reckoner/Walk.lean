import Reckoner.Diagnostic.Basic

/-!
# Walks

A `Walk` goes from state to state and comes to a value. It may stop before: it is refused, with a diagnostic, or it is
at fault, when it asks for what is not there. And it need not end: loops and recursions of a walk are given the number
of rounds or of nested calls that they may make, and a walk that would make more has no result.

The states that a walk was in are kept, so what it does on its way can be told afterwards (`Walk.Ends`).
-/

namespace Reckoner

/-- Why a walk stops before it comes to a value. -/
inductive Walk.Stop where
  | refused (d : Diagnostic)
  | fault
deriving DecidableEq, Repr

/-- The state that a walk is in, and those that it was in before, the latest first. -/
structure Walk.Track (σ : Type) where
  now : σ
  passed : List σ
deriving DecidableEq, Repr

/-- Steps along a track. -/
abbrev Walk.Steps (σ : Type) :=
  StateT (Track σ) Option

abbrev Walk (σ α : Type) :=
  ExceptT Walk.Stop (Walk.Steps σ) α

namespace Walk

variable {σ α β γ : Type}

def now : Walk σ σ :=
  return (← get).now

def goTo (y : σ) : Walk σ Unit :=
  modify fun t => ⟨y, t.now :: t.passed⟩

def refuse (d : Diagnostic) : Walk σ α :=
  throw (.refused d)

def fault : Walk σ α :=
  throw .fault

/-- A walk that would have to go on, and may not. -/
def unended : Walk σ α :=
  fun _ => none

/-- Goes on with `h` if `w` is refused. -/
def rescue (w : Walk σ α) (h : Diagnostic → Walk σ α) : Walk σ α :=
  ExceptT.mk do
    match ← w.run with
    | .ok a => return .ok a
    | .error (.refused d) => (h d).run
    | .error .fault => return .error .fault

/-- Makes one round after the other, each with what the last one hands on, until one comes to a result. -/
def loop (round : β → Walk σ (β ⊕ γ)) : Nat → β → Walk σ γ
  | 0, _ => unended
  | rounds + 1, b => do
    match ← round b with
    | .inl b => loop round rounds b
    | .inr c => return c

/-- How a walk stops that comes to the outcome. -/
def ofOutcome : Outcome α → Except Stop α
  | .ok a => .ok a
  | .error d => .error (.refused d)

/-! ## What walks do on their way -/

/-- The steps from `x` end, with a result and in a state that fit `post`. All states on the way are valid, and none is
behind `x` or behind one that was passed before it. -/
def Ends {ρ : Type} (valid : σ → Prop) (far : σ → Nat) (x : σ) (w : Steps σ ρ) (post : ρ → σ → Prop) : Prop :=
  ∃ r y trail, (∀ past, w ⟨x, past⟩ = some (r, ⟨y, trail ++ past⟩)) ∧ post r y ∧
    (∀ z ∈ y :: trail, valid z ∧ far x ≤ far z) ∧ (y :: trail).Pairwise fun later earlier => far earlier ≤ far later

section

variable {ρ τ : Type} {valid valid' : σ → Prop} {far : σ → Nat} {x y : σ}

theorem Ends.mono {w : Steps σ ρ} {post post' : ρ → σ → Prop} (h : Ends valid far x w post)
    (hvalid : ∀ z, valid z → valid' z) (hpost : ∀ r y, valid y → far x ≤ far y → post r y → post' r y) :
    Ends valid' far x w post' := by
  obtain ⟨r, y, trail, hrun, hy, hall, hup⟩ := h
  obtain ⟨hvy, hxy⟩ := hall y List.mem_cons_self
  exact ⟨r, y, trail, hrun, hpost r y hvy hxy hy, fun z hz => ⟨hvalid z (hall z hz).1, (hall z hz).2⟩, hup⟩

/-- Steps that stay where they are. -/
theorem ends_of_stays {w : Steps σ ρ} {post : ρ → σ → Prop} {r : ρ} (hrun : ∀ past, w ⟨x, past⟩ = some (r, ⟨x, past⟩))
    (hx : valid x) (h : post r x) : Ends valid far x w post := by
  refine ⟨r, x, [], hrun, h, ?_, List.pairwise_singleton _ _⟩
  intro z hz
  rw [List.mem_singleton.mp hz]
  exact ⟨hx, Nat.le_refl _⟩

/-- Steps that are made behind others are on one way with them. -/
theorem Ends.followed {w : Steps σ ρ} {g : ρ → Steps σ τ} {post : ρ → σ → Prop} {post' : τ → σ → Prop}
    (hw : Ends valid far x w post) (hg : ∀ r y, valid y → far x ≤ far y → post r y → Ends valid far y (g r) post') :
    Ends valid far x (w >>= g) post' := by
  obtain ⟨r, y, trail, hrun, hy, hall, hup⟩ := hw
  obtain ⟨hvy, hxy⟩ := hall y List.mem_cons_self
  obtain ⟨htrail, hpassed⟩ := List.pairwise_cons.mp hup
  obtain ⟨r', z, trail', hrun', hz, hall', hup'⟩ := hg r y hvy hxy hy
  refine ⟨r', z, trail' ++ trail, ?_, hz, ?_, ?_⟩
  · intro past
    have hboth : (w >>= g) ⟨x, past⟩ = g r ⟨y, trail ++ past⟩ := by
      simp only [bind, StateT.bind, hrun past, Option.bind_some]
    rw [hboth, hrun', List.append_assoc]
  · intro s hs
    rw [← List.cons_append] at hs
    rcases List.mem_append.mp hs with hs | hs
    · exact ⟨(hall' s hs).1, Nat.le_trans hxy (hall' s hs).2⟩
    · exact hall s (List.mem_cons_of_mem y hs)
  · rw [← List.cons_append, List.pairwise_append]
    exact ⟨hup', hpassed, fun s hs t ht => Nat.le_trans (htrail t ht) (hall' s hs).2⟩

end

section

variable {valid : σ → Prop} {far : σ → Nat} {x y : σ} {post : Except Stop α → σ → Prop}

theorem ends_pure {a : α} (hx : valid x) (h : post (.ok a) x) : Ends valid far x (pure a : Walk σ α) post :=
  ends_of_stays (fun _ => rfl) hx h

theorem ends_refuse {d : Diagnostic} (hx : valid x) (h : post (.error (.refused d)) x) :
    Ends valid far x (refuse d) post :=
  ends_of_stays (fun _ => rfl) hx h

theorem ends_goTo {post : Except Stop Unit → σ → Prop} (hx : valid x) (hy : valid y) (hxy : far x ≤ far y)
    (h : post (.ok ()) y) : Ends valid far x (goTo y) post := by
  refine ⟨.ok (), y, [x], fun _ => rfl, h, ?_, List.pairwise_pair.mpr hxy⟩
  simp [hx, hy, hxy]

theorem ends_now_bind {f : σ → Walk σ α} (h : Ends valid far x (f x) post) :
    Ends valid far x (now >>= f : Walk σ α) post :=
  h

theorem Ends.bind {w : Walk σ α} {f : α → Walk σ β} {post' : Except Stop β → σ → Prop}
    (hw : Ends valid far x w post)
    (hok : ∀ a y, valid y → far x ≤ far y → post (.ok a) y → Ends valid far y (f a) post')
    (herror : ∀ e y, valid y → far x ≤ far y → post (.error e) y → post' (.error e) y) :
    Ends valid far x (w >>= f : Walk σ β) post' := by
  refine hw.followed (g := ExceptT.bindCont f) ?_
  intro r y hy hxy h
  cases r with
  | ok a => exact hok a y hy hxy h
  | error e => exact ends_of_stays (fun _ => rfl) hy (herror e y hy hxy h)

/-- Behind a walk that is known to come to `a` in `y`. -/
theorem Ends.bind_ok {a : α} {w : Walk σ α} {f : α → Walk σ β} {post' : Except Stop β → σ → Prop}
    (hw : Ends valid far x w fun r z => r = .ok a ∧ z = y) (h : Ends valid far y (f a) post') :
    Ends valid far x (w >>= f : Walk σ β) post' := by
  refine hw.bind ?_ ?_
  · rintro b z - - ⟨hb, rfl⟩
    cases hb
    exact h
  · rintro e z - - ⟨he, -⟩
    cases he

/-- A walk that is rescued when it is refused, and is never at fault. -/
theorem Ends.rescue {w : Walk σ α} {h : Diagnostic → Walk σ α} {post' : Except Stop α → σ → Prop}
    (hw : Ends valid far x w post) (hok : ∀ a y, valid y → far x ≤ far y → post (.ok a) y → post' (.ok a) y)
    (hrefused : ∀ d y, valid y → far x ≤ far y → post (.error (.refused d)) y → Ends valid far y (h d) post')
    (hfault : ∀ y, ¬ post (.error .fault) y) : Ends valid far x (w.rescue h) post' := by
  unfold Walk.rescue
  refine hw.followed ?_
  rintro (⟨d | -⟩ | a) y hy hxy hpost
  · exact hrefused d y hy hxy hpost
  · exact absurd hpost (hfault y)
  · exact ends_of_stays (fun _ => rfl) hy (hok a y hy hxy hpost)

/-- Rounds that go on ahead come to an end before they come to where nothing valid is left. -/
theorem ends_loop (invariant : β → σ → Prop) {round : β → Walk σ (β ⊕ γ)} {post : Except Stop γ → σ → Prop}
    (hround : ∀ b x, valid x → invariant b x → Ends valid far x (round b) fun r y =>
      match r with
      | .ok (.inl b') => invariant b' y ∧ far x < far y
      | .ok (.inr c) => post (.ok c) y
      | .error e => post (.error e) y)
    {limit rounds : Nat} (hlimit : ∀ z, valid z → far z ≤ limit) {b : β} (hx : valid x) (h : invariant b x)
    (hrounds : limit < far x + rounds) : Ends valid far x (loop round rounds b) post := by
  induction rounds generalizing b x with
  | zero =>
    have hle := hlimit x hx
    omega
  | succ rounds ih =>
    refine (hround b x hx h).bind ?_ fun e y _ _ h => h
    rintro (b' | c) y hy hxy hpost
    · obtain ⟨hinv, hlt⟩ := hpost
      exact ih hy hinv (by omega)
    · exact ends_pure hy hpost

end

end Walk

/-- What is left of a list begins with the element that is there. -/
theorem drop_eq_cons {α : Type} {l : List α} {i : Nat} {a : α} (h : l[i]? = some a) :
    l.drop i = a :: l.drop (i + 1) := by
  rw [List.drop_eq_getElem?_toList_append, h]
  rfl

end Reckoner
