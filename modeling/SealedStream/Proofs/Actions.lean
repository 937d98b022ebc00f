import SealedStream.Focus

/-!
# How actions end

An action ends with an answer and a state. How a sequence of actions ends is told by how its parts
end, so that no later proof has to run one.

## Main definitions

* `Action.Ends` — an action ends with an answer in a state.
* `Action.Preserves` — an action leaves a part of the state as it is.
* `Action.Succeeds` — an action does not fail, and leaves a property of the state as it is.
-/

namespace SealedStream.Action

variable {ε ε' σ τ α β : Type}

/-- From the state `s`, the action ends with the answer `r` in the state `t`. -/
def Ends (act : Action ε σ α) (s : σ) (r : Except ε α) (t : σ) : Prop := act.toExcept s = (r, t)

variable {s t : σ} {r : Except ε α}

@[simp] theorem ends_pure_iff {a : α} :
    Ends (pure a : Action ε σ α) s r t ↔ r = .ok a ∧ t = s := by
  change (Except.ok a, s) = (r, t) ↔ _
  grind

@[simp] theorem ends_throw_iff {e : ε} :
    Ends (throw e : Action ε σ α) s r t ↔ r = .error e ∧ t = s := by
  change (Except.error e, s) = (r, t) ↔ _
  grind

@[simp] theorem ends_get_iff {r : Except ε σ} :
    Ends (get : Action ε σ σ) s r t ↔ r = .ok s ∧ t = s := by
  change (Except.ok s, s) = (r, t) ↔ _
  grind

@[simp] theorem ends_set_iff {r : Except ε PUnit} {u : σ} :
    Ends (set u : Action ε σ PUnit) s r t ↔ r = .ok ⟨⟩ ∧ t = u := by
  change (Except.ok PUnit.unit, u) = (r, t) ↔ _
  grind

@[simp] theorem ends_modify_iff {r : Except ε PUnit} {f : σ → σ} :
    Ends (modify f : Action ε σ PUnit) s r t ↔ r = .ok ⟨⟩ ∧ t = f s := by
  change (Except.ok PUnit.unit, f s) = (r, t) ↔ _
  grind

@[simp] theorem ends_ofExcept_iff {x : Except ε α} :
    Ends (ofExcept x : Action ε σ α) s r t ↔ r = x ∧ t = s := by
  cases x <;> simp [ofExcept]

/-- A sequence ends early with the fault of its first part, or as its second part ends. -/
theorem ends_bind_iff {x : Action ε σ α} {f : α → Action ε σ β} {r : Except ε β} :
    Ends (x >>= f) s r t ↔
      (∃ e, Ends x s (.error e) t ∧ r = .error e) ∨ ∃ a u, Ends x s (.ok a) u ∧ Ends (f a) u r t := by
  simp only [Ends, toExcept, bind, EStateM.bind]
  cases x s <;> grind

theorem ends_bind_ok_iff {x : Action ε σ α} {f : α → Action ε σ β} {b : β} :
    Ends (x >>= f) s (.ok b) t ↔ ∃ a u, Ends x s (.ok a) u ∧ Ends (f a) u (.ok b) t := by
  simp [ends_bind_iff]

@[simp] theorem ends_pure_bind_iff {a : α} {f : α → Action ε σ β} {r : Except ε β} :
    Ends (pure a >>= f) s r t ↔ Ends (f a) s r t := by simp

@[simp] theorem ends_throw_bind_iff {e : ε} {f : α → Action ε σ β} {r : Except ε β} :
    Ends (throw e >>= f) s r t ↔ r = .error e ∧ t = s := by
  simp [ends_bind_iff, and_assoc, and_comm]

@[simp] theorem ends_get_bind_iff {f : σ → Action ε σ β} {r : Except ε β} :
    Ends (get >>= f) s r t ↔ Ends (f s) s r t := by
  simp [ends_bind_iff, and_assoc]

@[simp] theorem ends_modify_bind_iff {f : PUnit → Action ε σ β} {g : σ → σ} {r : Except ε β} :
    Ends (modify g >>= f) s r t ↔ Ends (f ⟨⟩) (g s) r t := by
  simp only [ends_bind_iff, ends_modify_iff]
  grind

@[simp] theorem ends_set_bind_iff {u : σ} {f : PUnit → Action ε σ β} {r : Except ε β} :
    Ends (set u >>= f) s r t ↔ Ends (f ⟨⟩) u r t := by
  simp only [ends_bind_iff, ends_set_iff]
  grind

theorem ends_ofExcept_bind_iff {x : Except ε α} {f : α → Action ε σ β} {r : Except ε β} :
    Ends (ofExcept x >>= f) s r t ↔
      (∃ e, x = .error e ∧ r = .error e ∧ t = s) ∨ ∃ a, x = .ok a ∧ (f a).Ends s r t := by
  cases x <;> simp [ofExcept]

theorem ends_focus_iff {get : σ → τ} {set : τ → σ → σ} {name : ε → ε'} {act : Action ε τ α}
    {r : Except ε' α} :
    Ends (focus get set name act) s r t ↔
      ∃ r' u, Ends act (get s) r' u ∧ r = r'.mapError name ∧ t = set u s := by
  simp only [Ends, toExcept, focus]
  cases act (get s) with
  | ok a u =>
    have named : (.ok a : Except ε α).mapError name = .ok a := rfl
    grind
  | error e u =>
    have named : (.error e : Except ε α).mapError name = .error (name e) := rfl
    grind

theorem ends_focus_ok_iff {get : σ → τ} {set : τ → σ → σ} {name : ε → ε'} {act : Action ε τ α}
    {a : α} :
    Ends (focus get set name act) s (.ok a) t ↔ ∃ u, Ends act (get s) (.ok a) u ∧ t = set u s := by
  rw [ends_focus_iff]
  constructor
  · rintro ⟨r', u, ends, named, rfl⟩
    cases r' with
    | error e => cases named
    | ok a' =>
      cases named
      exact ⟨u, ends, rfl⟩
  · rintro ⟨u, ends, rfl⟩
    exact ⟨_, u, ends, rfl, rfl⟩

/-- What follows a fault that is caught starts in the state it left. -/
theorem ends_tryCatch_iff {x : Action ε σ α} {handle : ε → Action ε σ α} :
    Ends (tryCatch x handle) s r t ↔ (∃ a, Ends x s (.ok a) t ∧ r = .ok a) ∨
      ∃ e u, Ends x s (.error e) u ∧ Ends (handle e) u r t := by
  cases run : x s with
  | ok a u =>
    have whole : (tryCatch x handle : Action ε σ α) s = .ok a u := by
      change EStateM.tryCatch x handle s = _
      delta EStateM.tryCatch
      simp only [run]
    simp only [Ends, toExcept, run, whole]
    grind
  | error e u =>
    have whole : (tryCatch x handle : Action ε σ α) s = handle e u := by
      change EStateM.tryCatch x handle s = _
      delta EStateM.tryCatch
      simp only [run]
      rfl
    simp only [Ends, toExcept, run, whole]
    grind

theorem ends_tryCatch_ok_iff {x : Action ε σ α} {handle : ε → Action ε σ α} {a : α} :
    Ends (tryCatch x handle) s (.ok a) t ↔ Ends x s (.ok a) t ∨
      ∃ e u, Ends x s (.error e) u ∧ Ends (handle e) u (.ok a) t := by
  simp [ends_tryCatch_iff]

theorem ends_toExcept (act : Action ε σ α) (s : σ) :
    Ends act s (act.toExcept s).1 (act.toExcept s).2 := rfl

theorem Ends.unique {act : Action ε σ α} {r' : Except ε α} {t' : σ} (h : act.Ends s r t)
    (h' : act.Ends s r' t') : r = r' ∧ t = t' := by
  unfold Ends at h h'
  rw [h, Prod.mk.injEq] at h'
  exact h'

/-! ## What an action leaves alone -/

/-- However the action ends, what `view` shows of the state stays as it is. -/
def Preserves {ν : Type} (view : σ → ν) (act : Action ε σ α) : Prop :=
  ∀ s r t, act.Ends s r t → view t = view s

namespace Preserves

variable {ν : Type} {view : σ → ν}

theorem give {a : α} : Preserves view (pure a : Action ε σ α) := fun _ _ _ ends => by
  rw [(ends_pure_iff.1 ends).2]

theorem fail {e : ε} : Preserves view (throw e : Action ε σ α) := fun _ _ _ ends => by
  rw [(ends_throw_iff.1 ends).2]

theorem read : Preserves view (get : Action ε σ σ) := fun _ _ _ ends => by
  rw [(ends_get_iff.1 ends).2]

theorem lift {x : Except ε α} : Preserves view (ofExcept x : Action ε σ α) := fun _ _ _ ends => by
  rw [(ends_ofExcept_iff.1 ends).2]

theorem change {f : σ → σ} (same : ∀ s, view (f s) = view s) :
    Preserves view (modify f : Action ε σ PUnit) := fun _ _ _ ends => by
  rw [(ends_modify_iff.1 ends).2, same]

theorem part {get : σ → τ} {set : τ → σ → σ} {name : ε → ε'} {act : Action ε τ α}
    (same : ∀ t s, view (set t s) = view s) : Preserves view (focus get set name act) := by
  intro s r t ends
  obtain ⟨_, u, -, -, rfl⟩ := ends_focus_iff.1 ends
  exact same u s

theorem bind {x : Action ε σ α} {f : α → Action ε σ β} (first : Preserves view x)
    (next : ∀ a, Preserves view (f a)) : Preserves view (x >>= f) := by
  intro s r t ends
  rcases ends_bind_iff.1 ends with ⟨_, ends, -⟩ | ⟨a, u, ends, rest⟩
  · exact first _ _ _ ends
  · exact (next a _ _ _ rest).trans (first _ _ _ ends)

/-- What a sequence may change, its second part changes. -/
theorem bind_cases {x : Action ε σ α} {f : α → Action ε σ β} {r : Except ε β}
    (first : Preserves view x) (ends : (x >>= f).Ends s r t) :
    view t = view s ∧ (∃ e, r = .error e) ∨ ∃ a u, view u = view s ∧ (f a).Ends u r t := by
  rcases ends_bind_iff.1 ends with ⟨e, ended, fails⟩ | ⟨a, u, ended, rest⟩
  · exact .inl ⟨first _ _ _ ended, e, fails⟩
  · exact .inr ⟨a, u, first _ _ _ ended, rest⟩

theorem ite {p : Prop} [Decidable p] {x y : Action ε σ α} (pos : Preserves view x)
    (neg : Preserves view y) : Preserves view (if p then x else y) := by
  split
  · exact pos
  · exact neg

end Preserves

/-! ## What keeps an action from failing -/

/-- From a state with the property, the action ends with an answer, in a state with the property. -/
def Succeeds (p : σ → Prop) (act : Action ε σ α) : Prop :=
  ∀ s r t, p s → act.Ends s r t → p t ∧ ∃ a, r = .ok a

namespace Succeeds

variable {p : σ → Prop}

theorem give {a : α} : Succeeds p (pure a : Action ε σ α) := fun _ _ _ holds ends => by
  obtain ⟨rfl, rfl⟩ := ends_pure_iff.1 ends
  exact ⟨holds, a, rfl⟩

theorem read : Succeeds p (get : Action ε σ σ) := fun _ _ _ holds ends => by
  obtain ⟨rfl, rfl⟩ := ends_get_iff.1 ends
  exact ⟨holds, _, rfl⟩

theorem change {f : σ → σ} (keeps : ∀ s, p s → p (f s)) :
    Succeeds p (modify f : Action ε σ PUnit) := fun _ _ _ holds ends => by
  obtain ⟨rfl, rfl⟩ := ends_modify_iff.1 ends
  exact ⟨keeps _ holds, _, rfl⟩

/-- A sequence goes on after its first part. -/
theorem of_bind {x : Action ε σ α} {f : α → Action ε σ β} {r : Except ε β} (first : Succeeds p x)
    (holds : p s) (ends : (x >>= f).Ends s r t) :
    ∃ a u, p u ∧ x.Ends s (.ok a) u ∧ (f a).Ends u r t := by
  rcases ends_bind_iff.1 ends with ⟨_, ended, -⟩ | ⟨a, u, ended, rest⟩
  · obtain ⟨-, _, ok⟩ := first _ _ _ holds ended
    cases ok
  · exact ⟨a, u, (first _ _ _ holds ended).1, ended, rest⟩

theorem bind {x : Action ε σ α} {f : α → Action ε σ β} (first : Succeeds p x)
    (next : ∀ a, Succeeds p (f a)) : Succeeds p (x >>= f) := by
  intro s r t holds ends
  obtain ⟨a, u, holds, -, rest⟩ := first.of_bind holds ends
  exact next a _ _ _ holds rest

theorem ite {q : Prop} [Decidable q] {x y : Action ε σ α} (pos : Succeeds p x)
    (neg : Succeeds p y) : Succeeds p (if q then x else y) := by
  split
  · exact pos
  · exact neg

end Succeeds

end SealedStream.Action
