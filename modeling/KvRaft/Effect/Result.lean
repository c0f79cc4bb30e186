import Mathlib.Data.List.Basic
import Mathlib.Tactic.TypeStar

/-!
# Results

Code without effects returns in `Except F`: a value, or a fault. `Returns X Q r` says that
`r` is a value that `Q` accepts or a fault that `X` accepts. It composes along `>>=`
(`returns_bind`), which is all that proofs about sequences of such code need.
-/

namespace KvRaft

variable {F α β : Type}

@[simp]
theorem ok_bind (a : α) (f : α → Except F β) : (Except.ok a >>= f) = f a := rfl

@[simp]
theorem error_bind (e : F) (f : α → Except F β) : (Except.error e >>= f) = .error e := rfl

theorem pure_eq_ok (a : α) : (pure a : Except F α) = .ok a := rfl

theorem bind_eq_ok {r : Except F α} {f : α → Except F β} {b : β} :
    (r >>= f) = .ok b ↔ ∃ a, r = .ok a ∧ f a = .ok b := by
  cases r with
  | ok a => exact ⟨fun h => ⟨a, rfl, h⟩, fun ⟨_, ha, h⟩ => Except.ok.inj ha ▸ h⟩
  | error e => exact ⟨fun h => absurd h (by simp), fun ⟨_, ha, _⟩ => absurd ha (by simp)⟩

/-- A loop none of whose rounds faults. -/
theorem mapM_ok {f : α → Except F β} {g : α → β} {l : List α}
    (h : ∀ a ∈ l, f a = .ok (g a)) : l.mapM f = .ok (l.map g) := by
  induction l with
  | nil => rfl
  | cons a l ih =>
    have hhead : f a = .ok (g a) := h a List.mem_cons_self
    have htail : l.mapM f = .ok (l.map g) := ih fun b hb => h b (List.mem_cons_of_mem a hb)
    rw [List.mapM_cons, hhead, ok_bind, htail]
    rfl

/-- A value in `Q` or a fault in `X`. -/
def Returns (X : F → Prop) (r : Except F α) (Q : α → Prop) : Prop :=
  match r with
  | .ok a => Q a
  | .error e => X e

variable {X : F → Prop} {r : Except F α} {f : α → Except F β} {Q : α → Prop}

@[simp] theorem returns_ok {a : α} : Returns X (.ok a) Q ↔ Q a := Iff.rfl

@[simp] theorem returns_pure {a : α} : Returns X (pure a) Q ↔ Q a := Iff.rfl

@[simp] theorem returns_error {e : F} : Returns X (.error e) Q ↔ X e := Iff.rfl

@[simp]
theorem returns_bind {Q : β → Prop} :
    Returns X (r >>= f) Q ↔ Returns X r fun a => Returns X (f a) Q := by
  cases r <;> rfl

theorem Returns.mono {Q' : α → Prop} (h : Returns X r Q) (hQ : ∀ a, Q a → Q' a) :
    Returns X r Q' := by
  cases r with
  | ok a => exact hQ a h
  | error e => exact h

/-- More faults. -/
theorem Returns.faults {X' : F → Prop} (h : Returns X r Q) (hX : ∀ e, X e → X' e) :
    Returns X' r Q := by
  cases r with
  | ok a => exact h
  | error e => exact hX e h

end KvRaft
