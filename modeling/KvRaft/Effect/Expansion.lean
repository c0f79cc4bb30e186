import KvRaft.Effect.Program

/-!
# Operations made of smaller ones

An operation that is atomic for one argument may be code over smaller operations for
another. `Program.expand f` replaces every operation `o` of a program by the code `f o`.

* If `f o`, run alone, does to a store what `o` does, the expanded program does what the
  program does (`Program.run_expand`): nobody who runs it alone can tell the difference.
* If `f o` keeps to a protocol of the smaller operations and establishes what `o` promises,
  the expanded program keeps to it as well (`Program.Sat.expand`). What holds of the
  program between the steps of others holds of it at the finer grain too.
-/

namespace KvRaft

namespace Program

variable {S T : Signature} {F α β σ Γ Δ : Type}

/-- Every operation `o` is replaced by the code `f o`. -/
def expand (f : (o : S.Op) → Program T F (S.Answer o)) : Program S F α → Program T F α
  | .ret a => .ret a
  | .fault e => .fault e
  | .perform o k => f o >>= fun a => (k a).expand f

section

variable {f : (o : S.Op) → Program T F (S.Answer o)}

@[simp] theorem expand_ret (a : α) : (ret a : Program S F α).expand f = ret a := rfl

@[simp]
theorem expand_perform (o : S.Op) (k : S.Answer o → Program S F α) :
    (perform o k).expand f = f o >>= fun a => (k a).expand f := rfl

/-- If the code of each operation keeps to a protocol, where `φ` says what the ghost of the
program is for it, so does an expanded program. -/
theorem Sat.expand {P : Protocol S Γ} {R : Protocol T Δ} {X : F → Prop} {φ : Γ → Δ}
    (hf : ∀ g o, P.pre g o →
      (f o).Sat R X (φ g) fun a d => ∃ g', P.post g o a g' ∧ d = φ g')
    {p : Program S F α} {g : Γ} {Q : α → Γ → Prop} (h : p.Sat P X g Q) :
    (p.expand f).Sat R X (φ g) fun a d => ∃ g', Q a g' ∧ d = φ g' := by
  induction p generalizing g with
  | ret a => exact ⟨g, h, rfl⟩
  | fault e => exact h
  | perform o k ih =>
    obtain ⟨hpre, hk⟩ := h
    rw [expand_perform, sat_bind]
    refine (hf g o hpre).mono ?_
    rintro a d ⟨g', hpost, rfl⟩
    exact ih a (hk a g' hpost)

end

end Program

end KvRaft
