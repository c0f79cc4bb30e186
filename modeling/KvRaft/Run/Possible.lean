import Mathlib.Data.Nat.Init
import Mathlib.Logic.Relation

/-!
# What a system can still do

A safety property speaks about every run. That a system never gets stuck is of another kind:
from every state that a run has come to, *some* run leads on to the state that is wanted.

`Possible R I P Q` says this of the steps `R` and an invariant `I`: whoever is in a state of
`P` can get to a state of `Q`. The rules put such runs together: one after the other
(`Possible.trans`), with a rank that falls until the aim is reached (`Possible.of_rank`), with
steps each of which lowers a measure (`Possible.of_measure`), and one round for each member of a
list (`Possible.of_list`).
-/

namespace KvRaft

variable {σ ι : Type} {R : σ → σ → Prop} {I P P' Q Q' : σ → Prop}

/-- From every state of `P` that has the invariant, some run leads to a state of `Q`. -/
def Possible (R : σ → σ → Prop) (I P Q : σ → Prop) : Prop :=
  ∀ s, I s → P s → ∃ t, Relation.ReflTransGen R s t ∧ I t ∧ Q t

namespace Possible

theorem of_imp (h : ∀ s, I s → P s → Q s) : Possible R I P Q :=
  fun s hI hP => ⟨s, Relation.ReflTransGen.refl, hI, h s hI hP⟩

/-- A run that is known step by step. -/
theorem of_run (hI : ∀ s t, I s → R s t → I t)
    (h : ∀ s, I s → P s → ∃ t, Relation.ReflTransGen R s t ∧ Q t) : Possible R I P Q := by
  intro s hs hP
  obtain ⟨t, hst, hQ⟩ := h s hs hP
  refine ⟨t, hst, ?_, hQ⟩
  clear hQ
  induction hst with
  | refl => exact hs
  | tail _ hstep ih => exact hI _ _ ih hstep

theorem trans (h : Possible R I P Q) (h' : Possible R I Q Q') : Possible R I P Q' := by
  intro s hs hP
  obtain ⟨t, hst, ht, hQ⟩ := h s hs hP
  obtain ⟨u, htu, hu, hQ'⟩ := h' t ht hQ
  exact ⟨u, hst.trans htu, hu, hQ'⟩

theorem or (h : Possible R I P Q) (h' : Possible R I P' Q) :
    Possible R I (fun s => P s ∨ P' s) Q := by
  rintro s hs (hP | hP')
  · exact h s hs hP
  · exact h' s hs hP'

/-- What the first run is for may have been reached before the second. -/
theorem or_trans (h : Possible R I P fun s => Q s ∨ P' s) (h' : Possible R I P' Q) :
    Possible R I P Q :=
  h.trans ((of_imp fun _ _ hQ => hQ).or h')

theorem exists_left {P : ι → σ → Prop} (h : ∀ x, Possible R I (P x) Q) :
    Possible R I (fun s => ∃ x, P x s) Q := by
  rintro s hs ⟨x, hP⟩
  exact h x s hs hP

/-- A round that reaches `Q` or lowers the rank, again and again. -/
theorem of_rank {P : ℕ → σ → Prop}
    (h : ∀ n, Possible R I (P n) fun s => Q s ∨ ∃ m < n, P m s) (n : ℕ) :
    Possible R I (P n) Q := by
  induction n using Nat.strong_induction_on with
  | _ n ih =>
    intro s hs hP
    obtain ⟨t, hst, ht, hQ | ⟨m, hlt, hm⟩⟩ := h n s hs hP
    · exact ⟨t, hst, ht, hQ⟩
    · obtain ⟨u, htu, hu, hQ⟩ := ih m hlt t ht hm
      exact ⟨u, hst.trans htu, hu, hQ⟩

/-- A system that goes on as long as `Q` is not reached, and cannot go on for ever. -/
theorem of_measure {measure : σ → ℕ} (hI : ∀ s t, I s → R s t → I t)
    (hlow : ∀ s t, I s → R s t → measure t < measure s)
    (hgo : ∀ s, I s → Q s ∨ ∃ t, R s t) : Possible R I (fun _ => True) Q := by
  have hround : ∀ n, Possible R I (fun s => measure s = n)
      fun s => Q s ∨ ∃ m < n, measure s = m := by
    rintro n s hs rfl
    rcases hgo s hs with hQ | ⟨t, hst⟩
    · exact ⟨s, Relation.ReflTransGen.refl, hs, Or.inl hQ⟩
    · exact ⟨t, Relation.ReflTransGen.single hst, hI s t hs hst,
        Or.inr ⟨measure t, hlow s t hs hst, rfl⟩⟩
  intro s hs _
  exact of_rank hround (measure s) s hs rfl

/-- One round for each member of a list, until `Q` is reached or nobody is left. -/
theorem of_list {P : List ι → σ → Prop} (hnil : Possible R I (P []) Q)
    (hcons : ∀ x rest, Possible R I (P (x :: rest)) fun s => Q s ∨ P rest s) :
    ∀ xs, Possible R I (P xs) Q
  | [] => hnil
  | x :: rest => (hcons x rest).or_trans (of_list hnil hcons rest)

end Possible

end KvRaft
