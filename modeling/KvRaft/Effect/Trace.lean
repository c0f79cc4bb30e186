import KvRaft.Effect.Program

/-!
# What a program has done

`Handler.traced` runs the operations of a handler and writes each of them down: the store
before it, what it answered, and the store after it. The trace changes nothing
(`Program.run_traced`), and a handler that honours a protocol honours it with a trace
(`Handler.Honours.traced`). What the operations leave in the trace is then followed along
with the ghost (`Handler.Honours.events`), and the operation that stops a program is the one
that leaves its fault there (`Handler.Honours.stops`).
-/

namespace KvRaft

/-- An operation that has been performed. -/
structure Event (S : Signature) (F σ : Type) where
  before : σ
  op : S.Op
  result : Except F (S.Answer op)
  after : σ

section

variable {S : Signature} {F α σ Γ : Type} {H : Handler S F σ} {P : Protocol S Γ}
  {Y : F → σ → Prop} {R : σ → Γ → Prop}

/-- The handler, with a trace of what it has done. -/
def Handler.traced (H : Handler S F σ) : Handler S F (σ × List (Event S F σ)) := fun o s =>
  ((H o s.1).1, (H o s.1).2, s.2 ++ [⟨s.1, o, (H o s.1).1, (H o s.1).2⟩])

/-- The trace changes neither the result nor the store. -/
theorem Program.run_traced (H : Handler S F σ) (p : Program S F α) (s : σ)
    (log : List (Event S F σ)) :
    (p.run H.traced (s, log)).1 = (p.run H s).1 ∧ (p.run H.traced (s, log)).2.1 = (p.run H s).2 := by
  induction p generalizing s log with
  | ret a => exact ⟨rfl, rfl⟩
  | fault e => exact ⟨rfl, rfl⟩
  | perform o k ih =>
    rw [Program.run, Program.run, Handler.traced]
    rcases H o s with ⟨e | a, s'⟩
    · exact ⟨rfl, rfl⟩
    · exact ih a s' _

theorem Handler.Honours.traced (hH : H.Honours P Y R) :
    H.traced.Honours P (fun e s => Y e s.1) fun s g => R s.1 g := by
  intro s g o hR hpre
  have hop := hH s.1 g o hR hpre
  rw [Handler.traced]
  rcases hres : H o s.1 with ⟨e | a, s'⟩
  · rw [hres] at hop
    exact hop
  · rw [hres] at hop
    exact hop

/-- **Along a trace.** If every operation leaves an event that `E` accepts, so does the whole program. -/
theorem Handler.Honours.events {E : Event S F σ → Prop} (hH : H.Honours P Y R)
    (hE : ∀ {s g} (o : S.Op), R s g → P.pre g o → E ⟨s, o, (H o s).1, (H o s).2⟩) :
    H.traced.Honours P (fun e s => Y e s.1 ∧ ∀ event ∈ s.2, E event) fun s g =>
      R s.1 g ∧ ∀ event ∈ s.2, E event := by
  have hstep : ∀ {s : σ × List (Event S F σ)} {g : Γ} {o : S.Op}, R s.1 g →
      (∀ event ∈ s.2, E event) → P.pre g o → ∀ event ∈ (H.traced o s).2.2, E event := by
    intro s g o hR hall hpre event hevent
    rcases List.mem_append.mp hevent with hevent | hevent
    · exact hall event hevent
    · rw [List.mem_singleton.mp hevent]
      exact hE o hR hpre
  refine hH.traced.keeps ?_ ?_
  · intro s g o a s' g' hR hall hpre hop _ _
    have hnew := hstep hR hall hpre
    rwa [hop] at hnew
  · intro s g o e s' hR hall hpre hop
    have hnew := hstep hR hall hpre
    rwa [hop] at hnew

/-- An operation that stops the program is in the trace. -/
theorem Handler.Honours.stops (hH : H.Honours P Y R) :
    H.traced.Honours P (fun e s => Y e s.1 ∧ ∃ event ∈ s.2, event.result = .error e)
      fun s g => R s.1 g := by
  intro s g o hR hpre
  have hop := hH.traced s g o hR hpre
  rcases hres : H.traced o s with ⟨e | a, s'⟩
  · rw [hres] at hop
    rw [Handler.traced, Prod.mk.injEq] at hres
    obtain ⟨hresult, rfl⟩ := hres
    exact ⟨hop, _, List.mem_append_right _ (List.mem_singleton_self _), hresult⟩
  · rw [hres] at hop
    exact hop

end

end KvRaft
