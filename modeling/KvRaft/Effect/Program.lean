import KvRaft.Effect.Result
import Mathlib.Control.Basic
import Mathlib.Logic.Basic
import Mathlib.Tactic.TypeStar

/-!
# Programs that perform operations

Code that works on a shared store touches it through a fixed set of operations, each of
which is atomic: a section under a lock, a page read, a page write. `Program` is the code
without the store: a tree whose inner nodes perform an operation and go on with its
answer, and whose leaves return a value or stop with a fault. The same program can then
be

* run to completion by a `Handler`, which says what each operation does to a store
  (`Program.run`),
* executed one operation at a time between the steps of others, or cut off between any
  two of them.

## Protocols

A `Protocol` says what a program may ask for and what it may rely on, in terms of a
*ghost* of the store that remembers only what matters to the program: `pre` is the
obligation of the program before an operation, `post` what it knows of the answer and of
the next ghost. `Program.Sat P X p g Q` says that `p` keeps to the protocol `P` from the
ghost `g` on, stops only with faults in `X` and returns only values in `Q`.

The two sides meet in `Program.Sat.run`: a handler that honours the protocol
(`Handler.Honours`) takes a program that keeps to it to a result in `Q`.
-/

namespace KvRaft

/-- Operations, each with the type of its answers. -/
structure Signature where
  Op : Type
  Answer : Op → Type

/-- Code over the operations of `S` that returns an `α` or stops with a fault in `F`. -/
inductive Program (S : Signature) (F α : Type) : Type
  | ret (a : α)
  | fault (f : F)
  | perform (o : S.Op) (k : S.Answer o → Program S F α)

namespace Program

variable {S : Signature} {F α β γ : Type}

/-- First `p`, then `f` of what it returns. -/
protected def bind : Program S F α → (α → Program S F β) → Program S F β
  | .ret a, f => f a
  | .fault e, _ => .fault e
  | .perform o k, f => .perform o fun a => (k a).bind f

instance : Monad (Program S F) where
  pure := .ret
  bind := Program.bind

@[simp] theorem ret_bind (a : α) (f : α → Program S F β) : (ret a >>= f) = f a := rfl

@[simp] theorem fault_bind (e : F) (f : α → Program S F β) : (fault e >>= f) = fault e := rfl

@[simp]
theorem perform_bind (o : S.Op) (k : S.Answer o → Program S F α) (f : α → Program S F β) :
    (perform o k >>= f) = perform o fun a => k a >>= f := rfl

protected theorem id_map (p : Program S F α) : id <$> p = p := by
  induction p with
  | ret a => rfl
  | fault e => rfl
  | perform o k ih => exact congrArg (perform o) (funext ih)

protected theorem bind_assoc (p : Program S F α) (f : α → Program S F β)
    (g : β → Program S F γ) : (p >>= f) >>= g = p >>= fun a => f a >>= g := by
  induction p with
  | ret a => rfl
  | fault e => rfl
  | perform o k ih => exact congrArg (perform o) (funext ih)

instance : LawfulMonad (Program S F) :=
  LawfulMonad.mk' _ Program.id_map (fun _ _ => rfl) Program.bind_assoc

/-- One operation. -/
def op (o : S.Op) : Program S F (S.Answer o) :=
  .perform o .ret

/-- Code that performs no operation. -/
def ofExcept : Except F α → Program S F α
  | .ok a => .ret a
  | .error e => .fault e

instance : MonadLift (Except F) (Program S F) where
  monadLift := ofExcept

@[simp] theorem ofExcept_ok (a : α) : (ofExcept (.ok a) : Program S F α) = ret a := rfl

@[simp] theorem liftM_eq (r : Except F α) : (liftM r : Program S F α) = ofExcept r := rfl

@[simp] theorem ofExcept_error (e : F) : (ofExcept (.error e) : Program S F α) = fault e := rfl

end Program

/-- What each operation does to a store, and what it answers. -/
def Handler (S : Signature) (F σ : Type) : Type :=
  (o : S.Op) → σ → Except F (S.Answer o) × σ

namespace Program

variable {S : Signature} {F α β σ Γ : Type}

/-- Run to completion: a fault of an operation is a fault of the program. -/
def run (H : Handler S F σ) : Program S F α → σ → Except F α × σ
  | .ret a, s => (.ok a, s)
  | .fault e, s => (.error e, s)
  | .perform o k, s =>
    match H o s with
    | (.ok a, s') => (k a).run H s'
    | (.error e, s') => (.error e, s')

theorem run_op (H : Handler S F σ) (o : S.Op) (s : σ) :
    (op o : Program S F _).run H s = H o s := by
  rw [op, run]
  rcases H o s with ⟨_ | a, s'⟩ <;> rfl

/-- An operation that comes before a result has succeeded. -/
theorem run_perform_ok {H : Handler S F σ} {o : S.Op} {k : S.Answer o → Program S F α} {s s' : σ}
    {a : α} (h : (perform o k).run H s = (.ok a, s')) :
    ∃ b s₁, H o s = (.ok b, s₁) ∧ (k b).run H s₁ = (.ok a, s') := by
  rw [run] at h
  rcases hop : H o s with ⟨e | b, s₁⟩
  · rw [hop] at h
    exact absurd (Prod.mk.inj h).1 (by simp)
  · rw [hop] at h
    exact ⟨b, s₁, rfl, h⟩

/-- Running one program after another. -/
theorem run_bind (H : Handler S F σ) (p : Program S F α) (f : α → Program S F β) (s : σ) :
    (p >>= f).run H s =
      match p.run H s with
      | (.ok a, s') => (f a).run H s'
      | (.error e, s') => (.error e, s') := by
  induction p generalizing s with
  | ret a => rfl
  | fault e => rfl
  | perform o k ih =>
    rw [perform_bind, run, run]
    rcases hop : H o s with ⟨_ | a, s'⟩
    · rfl
    · exact ih a s'

theorem run_bind_ok {H : Handler S F σ} {p : Program S F α} {f : α → Program S F β} {s s' : σ}
    {a : α} (h : p.run H s = (.ok a, s')) : (p >>= f).run H s = (f a).run H s' := by
  rw [run_bind, h]

/-- Two programs that have returned, one after the other. -/
theorem run_bind_eq_ok {H : Handler S F σ} {p : Program S F α} {f : α → Program S F β} {s s' : σ}
    {b : β} (h : (p >>= f).run H s = (.ok b, s')) :
    ∃ a s₁, p.run H s = (.ok a, s₁) ∧ (f a).run H s₁ = (.ok b, s') := by
  rw [run_bind] at h
  rcases hp : p.run H s with ⟨e | a, s₁⟩
  · rw [hp] at h
    exact absurd (Prod.mk.inj h).1 (by simp)
  · rw [hp] at h
    exact ⟨a, s₁, rfl, h⟩

end Program

/-- The obligations of a program and what it may rely on, over a ghost of the store. -/
structure Protocol (S : Signature) (Γ : Type) where
  /-- What has to hold before an operation. -/
  pre : Γ → S.Op → Prop
  /-- What holds of its answer and of the next ghost. -/
  post : Γ → (o : S.Op) → S.Answer o → Γ → Prop

namespace Program

variable {S : Signature} {F α β σ Γ : Type} {P : Protocol S Γ} {X : F → Prop}

/-- The program keeps to the protocol from `g` on, stops only with faults in `X` and
returns only what `Q` accepts. -/
def Sat (P : Protocol S Γ) (X : F → Prop) :
    Program S F α → Γ → (α → Γ → Prop) → Prop
  | .ret a, g, Q => Q a g
  | .fault e, _, _ => X e
  | .perform o k, g, Q => P.pre g o ∧ ∀ a g', P.post g o a g' → (k a).Sat P X g' Q

@[simp]
theorem sat_ret {a : α} {g : Γ} {Q : α → Γ → Prop} : (ret a).Sat P X g Q ↔ Q a g := Iff.rfl

@[simp]
theorem sat_pure {a : α} {g : Γ} {Q : α → Γ → Prop} :
    (pure a : Program S F α).Sat P X g Q ↔ Q a g := Iff.rfl

@[simp]
theorem sat_fault {e : F} {g : Γ} {Q : α → Γ → Prop} :
    (fault e : Program S F α).Sat P X g Q ↔ X e := Iff.rfl

@[simp]
theorem sat_op {o : S.Op} {g : Γ} {Q : S.Answer o → Γ → Prop} :
    (op o : Program S F _).Sat P X g Q ↔ P.pre g o ∧ ∀ a g', P.post g o a g' → Q a g' :=
  Iff.rfl

@[simp]
theorem sat_perform {o : S.Op} {k : S.Answer o → Program S F α} {g : Γ} {Q : α → Γ → Prop} :
    (perform o k).Sat P X g Q ↔
      P.pre g o ∧ ∀ a g', P.post g o a g' → (k a).Sat P X g' Q := Iff.rfl

/-- A sequence keeps to the protocol exactly when its parts do, each from where the one
before it ended. -/
@[simp]
theorem sat_bind {p : Program S F α} {f : α → Program S F β} {g : Γ} {Q : β → Γ → Prop} :
    (p >>= f).Sat P X g Q ↔ p.Sat P X g fun a g' => (f a).Sat P X g' Q := by
  induction p generalizing g with
  | ret a => rfl
  | fault e => rfl
  | perform o k ih =>
    rw [perform_bind, sat_perform, sat_perform]
    exact and_congr_right fun _ =>
      forall_congr' fun a => forall_congr' fun g' => imp_congr_right fun _ => ih a

/-- A weaker postcondition. -/
theorem Sat.mono {p : Program S F α} {g : Γ} {Q Q' : α → Γ → Prop} (h : p.Sat P X g Q)
    (hQ : ∀ a g', Q a g' → Q' a g') : p.Sat P X g Q' := by
  induction p generalizing g with
  | ret a => exact hQ a g h
  | fault e => exact h
  | perform o k ih => exact ⟨h.1, fun a g' hpost => ih a (h.2 a g' hpost)⟩

/-- More faults. -/
theorem Sat.faults {X' : F → Prop} {p : Program S F α} {g : Γ} {Q : α → Γ → Prop}
    (h : p.Sat P X g Q) (hX : ∀ e, X e → X' e) : p.Sat P X' g Q := by
  induction p generalizing g with
  | ret a => exact h
  | fault e => exact hX e h
  | perform o k ih => exact ⟨h.1, fun a g' hpost => ih a (h.2 a g' hpost)⟩

/-- Code without operations keeps to every protocol. -/
@[simp]
theorem sat_ofExcept {r : Except F α} {g : Γ} {Q : α → Γ → Prop} :
    (ofExcept r : Program S F α).Sat P X g Q ↔ Returns X r fun a => Q a g := by
  cases r <;> rfl

end Program

/-- The handler honours the protocol where the store and the ghost are related by `R`: it
answers as `post` promises, or stops with a fault and leaves a store in `Y`. -/
def Handler.Honours {S : Signature} {F σ Γ : Type} (H : Handler S F σ) (P : Protocol S Γ)
    (Y : F → σ → Prop) (R : σ → Γ → Prop) : Prop :=
  ∀ s g o, R s g → P.pre g o →
    match H o s with
    | (.ok a, s') => ∃ g', P.post g o a g' ∧ R s' g'
    | (.error e, s') => Y e s'

section

variable {S : Signature} {F σ Γ : Type} {H : Handler S F σ} {P : Protocol S Γ}
  {Y N : F → σ → Prop} {R K : σ → Γ → Prop}

/-- What a handler keeps besides, and what is left of it where an operation stops. -/
theorem Handler.Honours.keeps (hH : H.Honours P Y R)
    (hok : ∀ {s g o a s' g'}, R s g → K s g → P.pre g o → H o s = (.ok a, s') →
      P.post g o a g' → R s' g' → K s' g')
    (herror : ∀ {s g o e s'}, R s g → K s g → P.pre g o → H o s = (.error e, s') → N e s') :
    H.Honours P (fun e s => Y e s ∧ N e s) fun s g => R s g ∧ K s g := by
  rintro s g o ⟨hR, hK⟩ hpre
  have hop := hH s g o hR hpre
  rcases hres : H o s with ⟨e | a, s'⟩
  · rw [hres] at hop
    exact ⟨hop, herror hR hK hpre hres⟩
  · rw [hres] at hop
    obtain ⟨g', hpost, hR'⟩ := hop
    exact ⟨g', hpost, hR', hok hR hK hpre hres hpost hR'⟩

/-- What a handler keeps besides, where nothing is said of a store it stops with. -/
theorem Handler.Honours.and (hH : H.Honours P Y R)
    (hok : ∀ {s g o a s' g'}, R s g → K s g → P.pre g o → H o s = (.ok a, s') →
      P.post g o a g' → R s' g' → K s' g') :
    H.Honours P Y fun s g => R s g ∧ K s g := by
  intro s g o hRK hpre
  have hop := hH.keeps (N := fun _ _ => True) hok (fun _ _ _ _ => trivial) s g o hRK hpre
  rcases hres : H o s with ⟨e | a, s'⟩
  · rw [hres] at hop
    exact hop.1
  · rw [hres] at hop
    exact hop

end

namespace Program

variable {S : Signature} {F α σ Γ : Type} {P : Protocol S Γ} {X : F → Prop}
  {Y : F → σ → Prop} {H : Handler S F σ} {R : σ → Γ → Prop}

/-- A program that keeps to a protocol the handler honours returns only what its
postcondition accepts. -/
theorem Sat.run {p : Program S F α} {g : Γ} {Q : α → Γ → Prop} (h : p.Sat P X g Q)
    (hH : H.Honours P Y R) {s : σ} (hR : R s g) :
    match p.run H s with
    | (.ok a, s') => ∃ g', Q a g' ∧ R s' g'
    | (.error e, s') => (X e ∧ ∃ g', R s' g') ∨ Y e s' := by
  induction p generalizing g s with
  | ret a => exact ⟨g, h, hR⟩
  | fault e => exact .inl ⟨h, g, hR⟩
  | perform o k ih =>
    obtain ⟨hpre, hk⟩ := h
    have hop := hH s g o hR hpre
    rw [Program.run]
    rcases hres : H o s with ⟨e | a, s'⟩
    · rw [hres] at hop
      exact .inr hop
    · rw [hres] at hop
      obtain ⟨g', hpost, hR'⟩ := hop
      exact ih a (hk a g' hpost) hR'

/-- The same for a run known to return. -/
theorem Sat.of_run {p : Program S F α} {g : Γ} {Q : α → Γ → Prop} (h : p.Sat P X g Q)
    (hH : H.Honours P Y R) {s s' : σ} (hR : R s g) {a : α} (hrun : p.run H s = (.ok a, s')) :
    ∃ g', Q a g' ∧ R s' g' := by
  have hres := h.run hH hR
  rwa [hrun] at hres

/-- Where neither side can fault, the run returns. -/
theorem Sat.run_ok {p : Program S F α} {g : Γ} {Q : α → Γ → Prop}
    (h : p.Sat P (fun _ => False) g Q) (hH : H.Honours P (fun _ _ => False) R) {s : σ}
    (hR : R s g) : ∃ a s' g', p.run H s = (.ok a, s') ∧ Q a g' ∧ R s' g' := by
  have hres := h.run hH hR
  rcases hrun : p.run H s with ⟨e | a, s'⟩
  · rw [hrun] at hres
    exact absurd hres (by simp)
  · rw [hrun] at hres
    obtain ⟨g', hQ, hR'⟩ := hres
    exact ⟨a, s', g', rfl, hQ, hR'⟩

end Program

end KvRaft
