import KvRaft.Consensus.TermLog
import Mathlib.Logic.Relation

/-!
# The invariant of term logs

`Inv` collects what every reachable state of `TermLog.Step` satisfies. Its clauses fall
into four groups: votes (cast in a term the voter has reached, for a candidate whose
recorded log is up to date), reigns (won by a quorum, growing from the log of the
winner, ordered by term), logs (grounded in the reigns) and acknowledgements.

The clause that carries leader completeness is `Kept`. A log that acknowledged a prefix
of the reign of `t` keeps it until it adopts from a reign whose *base* disagrees, so
the failure to keep is always blamed on an election. For the quorum that elects the
winner of `t` the blame falls strictly below `t` (`reign_won`), which is what the
induction on terms in `Inv.base_of_chosen` needs.
-/

namespace KvRaft
namespace TermLog

variable {ι E : Type} [DecidableEq ι] [Termed E]

/-- The terms of `l` do not decrease. -/
def Sorted (l : List E) : Prop :=
  l.Pairwise fun a b => Termed.term a ≤ Termed.term b

/-- The reign `r` of term `t` is the initial one, or a quorum elected its winner. -/
def Won (Q : Quorums ι) (s : State ι E) (t : ℕ) (r : Reign ι E) : Prop :=
  (t = 0 ∧ r.winner = none) ∨
    ∃ c P, r.winner = some c ∧ s.vote c t = some (c, r.base) ∧ Q.IsQuorum P ∧
      ∀ q ∈ P, ∃ l, s.vote q t = some (c, l) ∧ Kept s q t l

/-- The invariant of the reachable states. -/
structure Inv (Q : Quorums ι) (s : State ι E) : Prop where
  /-- Votes are cast in terms the voter has reached. -/
  vote_term : ∀ i t v, s.vote i t = some v → t ≤ s.term i
  /-- A vote goes to a standing candidate that is up to date. -/
  vote_cand : ∀ i t c l, s.vote i t = some (c, l) →
    ∃ lc, s.vote c t = some (c, lc) ∧ UpToDate lc l
  /-- A candidate's log has not reached the term it stands in. -/
  vote_self : ∀ c t l, s.vote c t = some (c, l) → ∀ e ∈ l, Termed.term e < t
  vote_grounded : ∀ i t c l, s.vote i t = some (c, l) → Grounded s l
  /-- As long as a term has no reign, its voters have lost nothing below it. -/
  vote_kept : ∀ i t c l, s.vote i t = some (c, l) → s.reign t = none → Kept s i t l
  reign_won : ∀ t r, s.reign t = some r → Won Q s t r
  reign_base : ∀ t r, s.reign t = some r → r.base <+: r.log
  reign_term : ∀ t r, s.reign t = some r → ∀ e ∈ r.log, Termed.term e ≤ t
  reign_sorted : ∀ t r, s.reign t = some r → Sorted r.log
  reign_grounded : ∀ t r, s.reign t = some r → Grounded s r.log
  log_grounded : ∀ i, Grounded s (s.log i)
  log_term : ∀ i, ∀ e ∈ s.log i, Termed.term e ≤ s.term i
  log_kept : ∀ i, Kept s i (s.term i + 1) (s.log i)
  /-- Only reigns are acknowledged, and only in terms that were reached. -/
  acked_none : ∀ i t, s.reign t = none → s.acked i t = 0
  acked_len : ∀ i t r, s.reign t = some r → s.acked i t ≤ r.log.length
  acked_term : ∀ i t, 0 < s.acked i t → t ≤ s.term i
  /-- In the term it stands in, a candidate keeps its log until the term has a reign. -/
  vote_own : ∀ i l, s.vote i (s.term i) = some (i, l) → s.reign (s.term i) = none → s.log i = l
  /-- In the term it won, a winner holds its base and nothing it did not propose. -/
  reign_own : ∀ i r, s.reign (s.term i) = some r → r.winner = some i →
    r.base <+: s.log i ∧ s.log i <+: r.log

variable {Q : Quorums ι} {s : State ι E}

omit [DecidableEq ι] in
/-- A grounded log is sorted because the reigns are. -/
theorem Grounded.sorted {l : List E} (h : Grounded s l)
    (hs : ∀ t r, s.reign t = some r → Sorted r.log) : Sorted l := by
  rcases List.eq_nil_or_concat l with rfl | ⟨l', e, rfl⟩
  · exact List.Pairwise.nil
  · obtain ⟨r, hr, ht⟩ := h l'.length e (by simp)
    rw [List.concat_eq_append, List.take_of_length_le (by simp)] at ht
    rw [List.concat_eq_append, ht]
    exact (hs _ r hr).take

/-- The initial state: everybody holds the log `base`, whose entries have term `0`. -/
def initial (base : List E) : State ι E where
  term _ := 0
  log _ := base
  vote _ _ := none
  reign t := if t = 0 then some ⟨none, base, base⟩ else none
  acked _ t := if t = 0 then base.length else 0

omit [DecidableEq ι] in
theorem Inv.initial (base : List E) (hb : ∀ e ∈ base, Termed.term e = 0) :
    Inv Q (TermLog.initial base : State ι E) := by
  have hreign : ∀ t r, (TermLog.initial base : State ι E).reign t = some r →
      t = 0 ∧ r = ⟨none, base, base⟩ := by
    intro t r hr
    by_cases ht : t = 0
    · subst ht
      exact ⟨rfl, by simpa [TermLog.initial] using hr.symm⟩
    · simp [TermLog.initial, ht] at hr
  have hground : Grounded (TermLog.initial base : State ι E) base := by
    intro k e he
    exact ⟨⟨none, base, base⟩, by simp [TermLog.initial, hb e (List.mem_of_getElem? he)], rfl⟩
  -- no vote has been cast, and the only reign is that of term 0 with the base as its log
  refine ⟨?_, ?_, ?_, ?_, ?_, ?_, ?_, ?_, ?_, ?_, ?_, ?_, ?_, ?_, ?_, ?_, ?_, ?_⟩
  · intro i t v hv
    simp [TermLog.initial] at hv
  · intro i t c l hv
    simp [TermLog.initial] at hv
  · intro c t l hv
    simp [TermLog.initial] at hv
  · intro i t c l hv
    simp [TermLog.initial] at hv
  · intro i t c l hv
    simp [TermLog.initial] at hv
  · intro t r hr
    obtain ⟨rfl, rfl⟩ := hreign t r hr
    exact Or.inl ⟨rfl, rfl⟩
  · intro t r hr
    obtain ⟨rfl, rfl⟩ := hreign t r hr
    exact List.prefix_refl _
  · intro t r hr e he
    obtain ⟨rfl, rfl⟩ := hreign t r hr
    exact (hb e he).le
  · intro t r hr
    obtain ⟨rfl, rfl⟩ := hreign t r hr
    refine List.pairwise_of_forall_mem_list fun a ha b hb' => ?_
    rw [hb a ha, hb b hb']
  · intro t r hr
    obtain ⟨rfl, rfl⟩ := hreign t r hr
    exact hground
  · exact fun _ => hground
  · exact fun _ e he => (hb e he).le
  · intro i t r k ht hr hk
    obtain ⟨rfl, rfl⟩ := hreign t r hr
    exact Or.inl rfl
  · intro i t ht
    by_cases h0 : t = 0
    · subst h0; simp [TermLog.initial] at ht
    · simp [TermLog.initial, h0]
  · intro i t r hr
    obtain ⟨rfl, rfl⟩ := hreign t r hr
    simp [TermLog.initial]
  · intro i t ht
    by_cases h0 : t = 0
    · subst h0; exact le_rfl
    · simp [TermLog.initial, h0] at ht
  · intro i l hv
    simp [TermLog.initial] at hv
  · intro i r hr hw
    obtain ⟨-, rfl⟩ := hreign _ r hr
    exact absurd hw (by simp)

/-! ### One step -/

namespace Inv

omit [DecidableEq ι] in
/-- `Kept` survives the growth of the reigns, in a state that satisfies the invariant. -/
theorem kept_mono (h : Inv Q s) {s' : State ι E} (hle : ReignLe s s') {i : ι} {u : ℕ}
    {l : List E} (hack : ∀ t, t < u → s'.acked i t = s.acked i t) (hk : Kept s i u l) :
    Kept s' i u l :=
  hk.mono hle hack (h.acked_len i) (h.acked_none i)

omit [DecidableEq ι] in
/-- A reign stays won when votes and reigns grow and nothing below it is acknowledged by
its voters. -/
theorem won_mono (h : Inv Q s) {s' : State ι E} (hle : ReignLe s s')
    (hv : ∀ i t v, s.vote i t = some v → s'.vote i t = some v)
    (hack : ∀ i t u, t < u → u ≤ s.term i → s'.acked i t = s.acked i t)
    {t : ℕ} {r r' : Reign ι E} (hr : Won Q s t r) (hw : r'.winner = r.winner)
    (hb : r'.base = r.base) : Won Q s' t r' := by
  rcases hr with ⟨h0, hr⟩ | ⟨c, P, hc, hcv, hP, hvotes⟩
  · exact Or.inl ⟨h0, hw.trans hr⟩
  · refine Or.inr ⟨c, P, hw.trans hc, by rw [hb]; exact hv _ _ _ hcv, hP, fun q hq => ?_⟩
    obtain ⟨l, hl, hk⟩ := hvotes q hq
    exact ⟨l, hv _ _ _ hl, h.kept_mono hle
      (fun u hu => hack q u t hu (h.vote_term q t _ hl)) hk⟩

theorem enter (h : Inv Q s) {i : ι} {t : ℕ} (ht : s.term i ≤ t) :
    Inv Q { s with term := Function.update s.term i t } := by
  have hle : ∀ j, s.term j ≤ Function.update s.term i t j := by
    intro j
    by_cases hj : j = i
    · subst hj; simpa using ht
    · simp [Function.update_of_ne hj]
  refine { h with
    vote_term := fun j u v hv => (h.vote_term j u v hv).trans (hle j)
    log_term := fun j e he => (h.log_term j e he).trans (hle j)
    acked_term := fun j u hu => (h.acked_term j u hu).trans (hle j)
    log_kept := ?_, vote_own := ?_, reign_own := ?_ }
  · intro j u r k hu hr hk
    by_cases hold : u < s.term j + 1
    · refine (h.log_kept j u r k hold hr hk).imp id ?_
      rintro ⟨t', r', h1, h2, h3⟩
      exact ⟨t', r', h1, h2.trans_le (by have := hle j; dsimp only; omega), h3⟩
    · -- nothing was acknowledged in a term that was not reached
      have hk0 : k = 0 := by
        by_contra hne
        have := h.acked_term j u (by dsimp only at hk; omega)
        omega
      subst hk0
      exact Or.inl (by simp)
  · intro j l hv hnone
    have heq : Function.update s.term i t j = s.term j :=
      le_antisymm (h.vote_term j _ _ hv) (hle j)
    dsimp only at hv hnone
    rw [heq] at hv hnone
    exact h.vote_own j l hv hnone
  · -- the winner of a term has voted in it
    intro j r hr hw
    have heq : Function.update s.term i t j = s.term j := by
      rcases h.reign_won _ r hr with ⟨-, hnone⟩ | ⟨c, P, hc, hvc, -⟩
      · exact absurd (hnone.symm.trans hw) (by simp)
      · obtain rfl := Option.some.inj (hc.symm.trans hw)
        exact le_antisymm (h.vote_term c _ _ hvc) (hle c)
    dsimp only at hr
    rw [heq] at hr
    exact h.reign_own j r hr hw

/-- Recording the vote of `i` in its own term, for a candidate `c` that stands with the
log `lc`. -/
theorem castVote (h : Inv Q s) {i c : ι} {lc : List E} (hv : s.vote i (s.term i) = none)
    (hc : s.vote c (s.term i) = some (c, lc) ∨ c = i ∧ lc = s.log i)
    (hlt : c = i → ∀ e ∈ s.log i, Termed.term e < s.term i)
    (hup : UpToDate lc (s.log i)) :
    Inv Q { s with vote := update₂ s.vote i (s.term i) (some (c, s.log i)) } := by
  have hmono : ∀ j t v, s.vote j t = some v →
      update₂ s.vote i (s.term i) (some (c, s.log i)) j t = some v :=
    fun _ _ _ hj => vote_update₂ hv _ hj
  -- every vote of the new state is old or the one that was cast
  have hcases : ∀ j t v, update₂ s.vote i (s.term i) (some (c, s.log i)) j t = some v →
      s.vote j t = some v ∨ j = i ∧ t = s.term i ∧ v = (c, s.log i) := by
    intro j t v hj
    by_cases hji : j = i ∧ t = s.term i
    · obtain ⟨rfl, rfl⟩ := hji
      rw [update₂_self] at hj
      exact Or.inr ⟨rfl, rfl, (Option.some.inj hj).symm⟩
    · rw [update₂_of_ne _ _ (by tauto)] at hj
      exact Or.inl hj
  refine { h with
    vote_term := ?_, vote_cand := ?_, vote_self := ?_, vote_grounded := ?_,
    vote_kept := ?_, reign_won := ?_, vote_own := ?_ }
  · intro j t v hj
    rcases hcases j t v hj with hj | ⟨rfl, rfl, -⟩
    · exact h.vote_term j t v hj
    · exact le_rfl
  · intro j t c' l hj
    rcases hcases j t _ hj with hj | ⟨rfl, rfl, heq⟩
    · obtain ⟨lc', hlc', hup'⟩ := h.vote_cand j t c' l hj
      exact ⟨lc', hmono _ _ _ hlc', hup'⟩
    · obtain ⟨rfl, rfl⟩ := Prod.mk.inj heq
      rcases hc with hc | ⟨rfl, rfl⟩
      · exact ⟨lc, hmono _ _ _ hc, hup⟩
      · exact ⟨_, update₂_self _ _ _ _, hup⟩
  · intro c' t l hj
    rcases hcases c' t _ hj with hj | ⟨rfl, rfl, heq⟩
    · exact h.vote_self c' t l hj
    · obtain ⟨rfl, rfl⟩ := Prod.mk.inj heq
      exact hlt rfl
  · intro j t c' l hj
    rcases hcases j t _ hj with hj | ⟨rfl, rfl, heq⟩
    · exact (h.vote_grounded j t c' l hj).mono (ReignLe.refl s)
    · obtain ⟨rfl, rfl⟩ := Prod.mk.inj heq
      exact (h.log_grounded j).mono (ReignLe.refl s)
  · intro j t c' l hj hnone
    rcases hcases j t _ hj with hj | ⟨rfl, rfl, heq⟩
    · exact h.kept_mono (ReignLe.refl s) (fun _ _ => rfl) (h.vote_kept j t c' l hj hnone)
    · -- the log of `i` was kept up to its own term, and that term has no reign to blame
      obtain ⟨rfl, rfl⟩ := Prod.mk.inj heq
      intro u r k hu hr hk
      refine (h.log_kept j u r k (hu.trans (Nat.lt_succ_self _)) hr hk).imp id ?_
      rintro ⟨t', r', h1, h2, h3, h4⟩
      have hne : t' ≠ s.term j := by
        rintro rfl
        exact absurd (h3.symm.trans hnone) (by simp)
      exact ⟨t', r', h1, by omega, h3, h4⟩
  · intro t r hr
    have hle : ReignLe s { s with vote := update₂ s.vote i (s.term i) (some (c, s.log i)) } :=
      ReignLe.refl s
    exact h.won_mono hle hmono (fun _ _ _ _ _ => rfl) (h.reign_won t r hr) rfl rfl
  · intro j l hj hnone
    rcases hcases j _ _ hj with hj | ⟨rfl, -, heq⟩
    · exact h.vote_own j l hj hnone
    · exact (Prod.mk.inj heq).2.symm

omit [DecidableEq ι] in
/-- A quorum of votes opens the reign of a term. -/
theorem elect (h : Inv Q s) {i : ι} {t : ℕ} {l : List E} {e : E} {P : Finset ι}
    (hi : s.vote i t = some (i, l)) (hP : Q.IsQuorum P)
    (hvotes : ∀ q ∈ P, ∃ l', s.vote q t = some (i, l')) (hnone : s.reign t = none)
    (he : Termed.term e = t) :
    Inv Q { s with reign := Function.update s.reign t (some ⟨some i, l, l ++ [e]⟩) } := by
  have hle := reignLe_elect hnone ⟨some i, l, l ++ [e]⟩
  -- a reign is an old one or the new one, whose log is that of the winner with `e` behind it
  have hcases : ∀ u r, Function.update s.reign t (some ⟨some i, l, l ++ [e]⟩) u = some r →
      s.reign u = some r ∨ u = t ∧ r = ⟨some i, l, l ++ [e]⟩ := by
    intro u r hr
    by_cases hut : u = t
    · subst hut
      rw [Function.update_self] at hr
      exact Or.inr ⟨rfl, (Option.some.inj hr).symm⟩
    · rw [Function.update_of_ne hut] at hr
      exact Or.inl hr
  have hlterm := h.vote_self i t l hi
  have hlg := h.vote_grounded i t i l hi
  refine { h with
    vote_grounded := fun j u c l' hj => (h.vote_grounded j u c l' hj).mono hle
    vote_kept := ?_, reign_won := ?_, reign_base := ?_, reign_term := ?_,
    reign_sorted := ?_, reign_grounded := ?_
    log_grounded := fun j => (h.log_grounded j).mono hle
    log_kept := fun j => h.kept_mono hle (fun _ _ => rfl) (h.log_kept j)
    acked_none := ?_, acked_len := ?_, vote_own := ?_, reign_own := ?_ }
  · intro j u c l' hj hu
    have hut : u ≠ t := by rintro rfl; simp at hu
    dsimp only at hu
    rw [Function.update_of_ne hut] at hu
    exact h.kept_mono hle (fun _ _ => rfl) (h.vote_kept j u c l' hj hu)
  · intro u r hr
    rcases hcases u r hr with hr | ⟨rfl, rfl⟩
    · exact h.won_mono hle (fun _ _ _ hv => hv) (fun _ _ _ _ _ => rfl) (h.reign_won u r hr)
        rfl rfl
    · refine Or.inr ⟨i, P, rfl, hi, hP, fun q hq => ?_⟩
      obtain ⟨l', hl'⟩ := hvotes q hq
      exact ⟨l', hl', h.kept_mono hle (fun _ _ => rfl) (h.vote_kept q u i l' hl' hnone)⟩
  · intro u r hr
    rcases hcases u r hr with hr | ⟨rfl, rfl⟩
    · exact h.reign_base u r hr
    · exact List.prefix_append _ _
  · intro u r hr x hx
    rcases hcases u r hr with hr | ⟨rfl, rfl⟩
    · exact h.reign_term u r hr x hx
    · rcases List.mem_append.mp hx with hx | hx
      · exact (hlterm x hx).le
      · rw [List.mem_singleton.mp hx, he]
  · intro u r hr
    rcases hcases u r hr with hr | ⟨rfl, rfl⟩
    · exact h.reign_sorted u r hr
    · refine List.pairwise_append.mpr ⟨hlg.sorted h.reign_sorted, by simp, ?_⟩
      intro a ha b hb
      rw [List.mem_singleton.mp hb, he]
      exact (hlterm a ha).le
  · intro u r hr
    rcases hcases u r hr with hr | ⟨rfl, rfl⟩
    · exact (h.reign_grounded u r hr).mono hle
    · have hnew : Function.update s.reign u (some ⟨some i, l, l ++ [e]⟩) (Termed.term e)
          = some ⟨some i, l, l ++ [e]⟩ := by rw [he, Function.update_self]
      exact (hlg.mono hle).concat hnew rfl
  · intro j u hu
    have hut : u ≠ t := by rintro rfl; simp at hu
    dsimp only at hu
    rw [Function.update_of_ne hut] at hu
    exact h.acked_none j u hu
  · intro j u r hr
    rcases hcases u r hr with hr | ⟨rfl, rfl⟩
    · exact h.acked_len j u r hr
    · have := h.acked_none j u hnone
      dsimp only
      omega
  · intro j l' hj hu
    have hut : s.term j ≠ t := by intro heq; simp [heq] at hu
    dsimp only at hu
    rw [Function.update_of_ne hut] at hu
    exact h.vote_own j l' hj hu
  · intro j r hr hw
    rcases hcases _ r hr with hr | ⟨htj, rfl⟩
    · exact h.reign_own j r hr hw
    · obtain rfl : i = j := Option.some.inj hw
      rw [h.vote_own i l (by rw [htj]; exact hi) (by rw [htj]; exact hnone)]
      exact ⟨List.prefix_refl _, List.prefix_append _ _⟩

omit [DecidableEq ι] in
/-- The winner of a term extends the log of its reign. -/
theorem propose (h : Inv Q s) {t : ℕ} {r₀ : Reign ι E} {e : E}
    (hr₀ : s.reign t = some r₀) (he : Termed.term e = t) :
    Inv Q { s with
      reign := Function.update s.reign t (some { r₀ with log := r₀.log ++ [e] }) } := by
  have hle := reignLe_propose hr₀ e
  -- a reign is an old one of another term, or that of `t` with one entry more
  have hcases : ∀ u r,
      Function.update s.reign t (some { r₀ with log := r₀.log ++ [e] }) u = some r →
      (u ≠ t ∧ s.reign u = some r) ∨ u = t ∧ r = { r₀ with log := r₀.log ++ [e] } := by
    intro u r hr
    by_cases hut : u = t
    · subst hut
      rw [Function.update_self] at hr
      exact Or.inr ⟨rfl, (Option.some.inj hr).symm⟩
    · rw [Function.update_of_ne hut] at hr
      exact Or.inl ⟨hut, hr⟩
  have hold : ∀ u, Function.update s.reign t (some { r₀ with log := r₀.log ++ [e] }) u = none →
      s.reign u = none := by
    intro u hu
    have hut : u ≠ t := by rintro rfl; simp at hu
    rwa [Function.update_of_ne hut] at hu
  refine { h with
    vote_grounded := fun j u c l' hj => (h.vote_grounded j u c l' hj).mono hle
    vote_kept := fun j u c l' hj hu =>
      h.kept_mono hle (fun _ _ => rfl) (h.vote_kept j u c l' hj (hold u hu))
    reign_won := ?_, reign_base := ?_, reign_term := ?_, reign_sorted := ?_,
    reign_grounded := ?_
    log_grounded := fun j => (h.log_grounded j).mono hle
    log_kept := fun j => h.kept_mono hle (fun _ _ => rfl) (h.log_kept j)
    acked_none := fun j u hu => h.acked_none j u (hold u hu)
    acked_len := ?_
    vote_own := fun j l hj hu => h.vote_own j l hj (hold _ hu)
    reign_own := ?_ }
  · intro u r hr
    rcases hcases u r hr with ⟨-, hr⟩ | ⟨rfl, rfl⟩
    · exact h.won_mono hle (fun _ _ _ hv => hv) (fun _ _ _ _ _ => rfl) (h.reign_won u r hr)
        rfl rfl
    · exact h.won_mono hle (fun _ _ _ hv => hv) (fun _ _ _ _ _ => rfl)
        (h.reign_won u r₀ hr₀) rfl rfl
  · intro u r hr
    rcases hcases u r hr with ⟨-, hr⟩ | ⟨rfl, rfl⟩
    · exact h.reign_base u r hr
    · exact (h.reign_base u r₀ hr₀).trans (List.prefix_append _ _)
  · intro u r hr x hx
    rcases hcases u r hr with ⟨-, hr⟩ | ⟨rfl, rfl⟩
    · exact h.reign_term u r hr x hx
    · rcases List.mem_append.mp hx with hx | hx
      · exact h.reign_term u r₀ hr₀ x hx
      · rw [List.mem_singleton.mp hx, he]
  · intro u r hr
    rcases hcases u r hr with ⟨-, hr⟩ | ⟨rfl, rfl⟩
    · exact h.reign_sorted u r hr
    · refine List.pairwise_append.mpr ⟨h.reign_sorted u r₀ hr₀, by simp, ?_⟩
      intro a ha b hb
      rw [List.mem_singleton.mp hb, he]
      exact h.reign_term u r₀ hr₀ a ha
  · intro u r hr
    rcases hcases u r hr with ⟨-, hr⟩ | ⟨rfl, rfl⟩
    · exact (h.reign_grounded u r hr).mono hle
    · have hnew : Function.update s.reign u (some { r₀ with log := r₀.log ++ [e] })
          (Termed.term e) = some { r₀ with log := r₀.log ++ [e] } := by
        rw [he, Function.update_self]
      exact ((h.reign_grounded u r₀ hr₀).mono hle).concat hnew rfl
  · intro j u r hr
    rcases hcases u r hr with ⟨-, hr⟩ | ⟨rfl, rfl⟩
    · exact h.acked_len j u r hr
    · have := h.acked_len j u r₀ hr₀
      rw [List.length_append]
      dsimp only
      omega
  · intro j r hr hw
    rcases hcases _ r hr with ⟨-, hr⟩ | ⟨hut, rfl⟩
    · exact h.reign_own j r hr hw
    · obtain ⟨hb, hl⟩ := h.reign_own j r₀ (by rw [hut]; exact hr₀) hw
      exact ⟨hb, hl.trans (List.prefix_append _ _)⟩

/-- Adopting from the reign of the own term loses no acknowledged prefix, unless the base
of that very reign disagrees with it. -/
theorem adopt (h : Inv Q s) {i : ι} {r : Reign ι E} {j k : ℕ}
    (hr : s.reign (s.term i) = some r) (hjk : j < k)
    (hkeep : (s.log i).take j = r.log.take j) (hne : (s.log i)[j]? ≠ r.log[j]?) :
    Inv Q { s with log := Function.update s.log i (r.log.take k) } := by
  -- an agreement of the two logs ends at the first disagreement
  have hagree : ∀ n, (s.log i).take n = r.log.take n → n ≤ j := by
    intro n hn
    by_contra hlt
    exact hne (getElem?_of_take_eq hn (by omega))
  refine { h with
    log_grounded := ?_, log_term := ?_, log_kept := ?_, vote_own := ?_, reign_own := ?_ }
  · intro i'
    dsimp only
    by_cases hi : i' = i
    · subst hi
      rw [Function.update_self]
      exact (h.reign_grounded _ r hr).take k
    · rw [Function.update_of_ne hi]
      exact h.log_grounded i'
  · intro i' e he
    dsimp only at he
    by_cases hi : i' = i
    · subst hi
      rw [Function.update_self] at he
      exact h.reign_term _ r hr e (List.mem_of_mem_take he)
    · rw [Function.update_of_ne hi] at he
      exact h.log_term i' e he
  · intro i' t q n ht hq hn
    dsimp only
    by_cases hi : i' = i
    · subst hi
      rw [Function.update_self]
      rcases h.log_kept i' t q n ht hq hn with heq | hblame
      · by_cases hbase : r.log.take n = q.log.take n
        · have hnj := hagree n (heq.trans hbase.symm)
          rw [List.take_take, min_eq_left (by omega)]
          exact Or.inl hbase
        · -- the reign adopted from disagrees: its base does, and it came after `t`
          have hlt : t ≠ s.term i' := by
            rintro rfl
            obtain rfl := Option.some.inj (hr.symm.trans hq)
            exact hbase rfl
          refine Or.inr ⟨s.term i', r, ?_, Nat.lt_succ_self _, hr, fun hb => hbase ?_⟩
          · dsimp only at ht; omega
          · have hlen := length_le_of_take_eq hb ((hn.trans (h.acked_len i' t q hq)))
            rw [← take_eq_of_initial (h.reign_base _ r hr) hlen, hb]
      · exact Or.inr hblame
    · rw [Function.update_of_ne hi]
      exact h.log_kept i' t q n ht hq hn
  · intro i' l hv hnone
    dsimp only
    by_cases hi : i' = i
    · subst hi
      exact absurd (hr.symm.trans hnone) (by simp)
    · rw [Function.update_of_ne hi]
      exact h.vote_own i' l hv hnone
  · intro i' q hq hw
    dsimp only
    by_cases hi : i' = i
    · -- the own reign: the first disagreement is the end of the own log
      subst hi
      obtain rfl := Option.some.inj (hr.symm.trans hq)
      obtain ⟨hb, hl⟩ := h.reign_own i' r hr hw
      have hlen : (s.log i').length ≤ j := hagree _ (take_eq_of_initial hl le_rfl)
      rw [Function.update_self]
      refine ⟨List.prefix_take_iff.mpr ⟨h.reign_base _ r hr, ?_⟩, List.take_prefix _ _⟩
      exact hb.length_le.trans (hlen.trans hjk.le)
    · rw [Function.update_of_ne hi]
      exact h.reign_own i' q hq hw

/-- Acknowledging a prefix the own log holds. -/
theorem ack (h : Inv Q s) {i : ι} {r : Reign ι E} {k : ℕ}
    (hr : s.reign (s.term i) = some r) (hk : k ≤ r.log.length)
    (hkeep : (s.log i).take k = r.log.take k) :
    Inv Q { s with
      acked := update₂ s.acked i (s.term i) (max (s.acked i (s.term i)) k) } := by
  -- only the entry of `i` at its own term moves
  have hold : ∀ j t u, t < u → u ≤ s.term j →
      update₂ s.acked i (s.term i) (max (s.acked i (s.term i)) k) j t = s.acked j t := by
    intro j t u htu hu
    refine update₂_of_ne _ _ ?_
    by_cases hj : j = i
    · subst hj; exact Or.inr (by omega)
    · exact Or.inl hj
  have hcases : ∀ j t,
      update₂ s.acked i (s.term i) (max (s.acked i (s.term i)) k) j t = s.acked j t ∨
        j = i ∧ t = s.term i := by
    intro j t
    by_cases hji : j = i ∧ t = s.term i
    · exact Or.inr hji
    · exact Or.inl (update₂_of_ne _ _ (by tauto))
  have hle : ReignLe s { s with
      acked := update₂ s.acked i (s.term i) (max (s.acked i (s.term i)) k) } :=
    ReignLe.refl s
  refine { h with
    vote_kept := fun j t c l hj hnone => h.kept_mono hle
      (fun u hu => hold j u t hu (h.vote_term j t _ hj)) (h.vote_kept j t c l hj hnone)
    reign_won := fun t q hq => h.won_mono hle (fun _ _ _ hv => hv) hold
      (h.reign_won t q hq) rfl rfl
    log_kept := ?_, acked_none := ?_, acked_len := ?_, acked_term := ?_ }
  · intro j t q n ht hq hn
    rcases hcases j t with heq | ⟨rfl, rfl⟩
    · dsimp only at hn
      rw [heq] at hn
      exact h.log_kept j t q n ht hq hn
    · rw [hr] at hq
      obtain rfl := Option.some.inj hq
      dsimp only at hn
      rw [update₂_self] at hn
      rcases le_max_iff.mp hn with hn | hn
      · exact h.log_kept j _ r n ht hr hn
      · exact Or.inl (take_eq_of_take_eq hkeep hn)
  · intro j t hnone
    rcases hcases j t with heq | ⟨rfl, rfl⟩
    · dsimp only
      rw [heq]
      exact h.acked_none j t hnone
    · exact absurd (hr.symm.trans hnone) (by simp)
  · intro j t q hq
    rcases hcases j t with heq | ⟨rfl, rfl⟩
    · dsimp only
      rw [heq]
      exact h.acked_len j t q hq
    · rw [hr] at hq
      obtain rfl := Option.some.inj hq
      dsimp only
      rw [update₂_self]
      exact max_le (h.acked_len j _ r hr) hk
  · intro j t hpos
    rcases hcases j t with heq | ⟨rfl, rfl⟩
    · dsimp only at hpos
      rw [heq] at hpos
      exact h.acked_term j t hpos
    · exact le_rfl

omit [DecidableEq ι] in
theorem upToDate_refl (l : List E) : UpToDate l l :=
  Or.inr ⟨rfl, le_rfl⟩

/-- **The invariant is inductive.** -/
theorem step (h : Inv Q s) {i : ι} {s' : State ι E} (hs : Step Q i s s') : Inv Q s' := by
  cases hs with
  | enter t ht => exact h.enter ht
  | stand hv hlt =>
    exact h.castVote hv (Or.inr ⟨rfl, rfl⟩) (fun _ => hlt) (upToDate_refl _)
  | grant c l hc hv hup =>
    refine h.castVote hv (Or.inl hc) ?_ hup
    rintro rfl
    exact absurd (hc.symm.trans hv) (by simp)
  | elect t l e P hi hP hvotes hnone he => exact h.elect hi hP hvotes hnone he
  | propose t r e hr hi he => exact h.propose hr he
  | adopt r j k hr hjk hk hkeep hne => exact h.adopt hr hjk hkeep hne
  | ack r k hr hk hkeep => exact h.ack hr hk hkeep

end Inv

/-! ### Elections -/

omit [DecidableEq ι] in
/-- **An acknowledgement is kept while the term lasts**: there is no later reign to blame. -/
theorem Inv.log_of_acked (h : Inv Q s) {i : ι} {r : Reign ι E}
    (hr : s.reign (s.term i) = some r) {k : ℕ} (hk : k ≤ s.acked i (s.term i)) :
    (s.log i).take k = r.log.take k := by
  rcases h.log_kept i _ r k (Nat.lt_succ_self _) hr hk with heq | ⟨t, r', hlt, hle, -⟩
  · exact heq
  · omega

omit [DecidableEq ι] in
/-- **Election safety.** A candidate that has a quorum of votes in a term that is reigned
is its winner. -/
theorem Inv.winner_unique (h : Inv Q s) {t : ℕ} {r : Reign ι E} (hr : s.reign t = some r)
    (ht : t ≠ 0) {c : ι} {P : Finset ι} (hP : Q.IsQuorum P)
    (hvotes : ∀ q ∈ P, ∃ l, s.vote q t = some (c, l)) : r.winner = some c := by
  rcases h.reign_won t r hr with ⟨h0, -⟩ | ⟨c', P', hw, -, hP', hvotes'⟩
  · exact absurd h0 ht
  · obtain ⟨q, hq, hq'⟩ := Q.meet hP hP'
    obtain ⟨l, hl⟩ := hvotes q hq
    obtain ⟨l', hl', -⟩ := hvotes' q hq'
    rw [hl] at hl'
    rw [hw, (Prod.mk.inj (Option.some.inj hl')).1]

/-! ### Chosen prefixes -/

/-- The first `k` entries of the reign of `t` are chosen: the last of them was proposed in
`t` itself and a quorum acknowledged them in `t`. -/
def Chosen (Q : Quorums ι) (s : State ι E) (t k : ℕ) (r : Reign ι E) : Prop :=
  s.reign t = some r ∧ k ≤ r.log.length ∧
    (∃ e, r.log[k - 1]? = some e ∧ Termed.term e = t) ∧ 0 < k ∧
    ∃ P, Q.IsQuorum P ∧ ∀ q ∈ P, k ≤ s.acked q t

omit [DecidableEq ι] in
theorem Chosen.mono {s' : State ι E} (hle : Le s s') {t k : ℕ} {r : Reign ι E}
    (h : Chosen Q s t k r) :
    ∃ r', Chosen Q s' t k r' ∧ r'.log.take k = r.log.take k := by
  obtain ⟨hr, hk, ⟨e, he, hterm⟩, hpos, P, hP, hack⟩ := h
  obtain ⟨r', hr', -, -, hp⟩ := hle.reign t r hr
  have htake := take_eq_of_initial hp hk
  refine ⟨r', ⟨hr', hk.trans hp.length_le, ⟨e, ?_, hterm⟩, hpos, P, hP,
    fun q hq => (hack q hq).trans (hle.acked q t)⟩, htake.symm⟩
  rw [← getElem?_of_take_eq htake (by omega)]
  exact he

omit [DecidableEq ι] in
theorem lastTerm_concat (l : List E) (e : E) : lastTerm (l ++ [e]) = Termed.term e := by
  simp [lastTerm]

omit [DecidableEq ι] in
/-- In a sorted log the last term bounds every term. -/
theorem Sorted.le_lastTerm {l : List E} (h : Sorted l) {e : E} (he : e ∈ l) :
    Termed.term e ≤ lastTerm l := by
  rcases List.eq_nil_or_concat l with rfl | ⟨l', x, rfl⟩
  · simp at he
  · rw [List.concat_eq_append] at h he ⊢
    rw [lastTerm_concat]
    rcases List.mem_append.mp he with hm | hm
    · exact (List.pairwise_append.mp h).2.2 e hm x (by simp)
    · rw [List.mem_singleton.mp hm]

omit [DecidableEq ι] in
/-- **Leader completeness.** The log with which a later term is won contains every
chosen prefix. By strong induction on the later term: a voter in both quorums kept the
prefix (the reigns that could be blamed are below the later term, so they contain it),
and the winner's log is at least as up to date as the voter's. -/
theorem Inv.base_of_chosen (h : Inv Q s) {t k : ℕ} {r : Reign ι E}
    (hch : Chosen Q s t k r) : ∀ (t' : ℕ) (r' : Reign ι E), t < t' →
      s.reign t' = some r' → r'.base.take k = r.log.take k := by
  obtain ⟨hr, hk, ⟨e, he, hterm⟩, hpos, P, hP, hack⟩ := hch
  intro t'
  induction t' using Nat.strong_induction_on with
  | _ t' ih =>
  intro r' hlt hr'
  obtain ⟨c, P', -, hcv, hP', hvotes⟩ : ∃ c P', r'.winner = some c ∧
      s.vote c t' = some (c, r'.base) ∧ Q.IsQuorum P' ∧
      ∀ q ∈ P', ∃ l, s.vote q t' = some (c, l) ∧ Kept s q t' l := by
    rcases h.reign_won t' r' hr' with ⟨h0, -⟩ | hwon
    · omega
    · exact hwon
  obtain ⟨q, hq, hq'⟩ := Q.meet hP hP'
  obtain ⟨lq, hlq, hkept⟩ := hvotes q hq'
  -- the common voter still had the prefix when it voted
  have hlqk : lq.take k = r.log.take k := by
    rcases hkept t r k hlt hr (hack q hq) with heq | ⟨t₁, r₁, h1, h2, hr₁, hne⟩
    · exact heq
    · exact absurd (ih t₁ h2 r₁ h1 hr₁) hne
  have hlq_sorted : Sorted lq := (h.vote_grounded q t' c lq hlq).sorted h.reign_sorted
  have he_lq : lq[k - 1]? = some e := by
    rw [getElem?_of_take_eq hlqk (by omega)]; exact he
  have hlq_last : t ≤ lastTerm lq := by
    rw [← hterm]
    exact hlq_sorted.le_lastTerm (List.mem_of_getElem? he_lq)
  have hlq_len : k ≤ lq.length := by
    have := (List.getElem?_eq_some_iff.mp he_lq).1
    omega
  obtain ⟨lc, hlc, hup⟩ := h.vote_cand q t' c lq hlq
  obtain rfl : lc = r'.base := (Prod.mk.inj (Option.some.inj (hlc.symm.trans hcv))).2
  have hbase_last : t ≤ lastTerm r'.base := by
    rcases hup with hup | ⟨hup, -⟩ <;> omega
  have hground := h.vote_grounded c t' c _ hcv
  rcases List.eq_nil_or_concat r'.base with hnil | ⟨l', x, hconcat⟩
  · -- an empty winning log is not up to date
    rw [hnil] at hup hbase_last
    rcases hup with hup | ⟨-, hup⟩
    · simp [lastTerm] at hup
    · rw [List.length_nil] at hup
      omega
  · rw [List.concat_eq_append] at hconcat
    have hlast : lastTerm r'.base = Termed.term x := by rw [hconcat, lastTerm_concat]
    obtain ⟨r₃, hr₃, htake₃⟩ := hground l'.length x (by rw [hconcat]; simp)
    have hlen : r'.base.length = l'.length + 1 := by rw [hconcat]; simp
    have hx_lt : Termed.term x < t' := h.vote_self c t' _ hcv x (by rw [hconcat]; simp)
    rw [← hlen, List.take_length] at htake₃
    rcases Nat.eq_or_lt_of_le (hlast ▸ hbase_last) with heq | hgt
    · -- the winner's last entry is of term `t`: the longer log contains the shorter one
      have hklen : k ≤ r'.base.length := by
        rcases hup with hup | ⟨-, hup⟩
        · omega
        · omega
      rw [← heq, hr] at hr₃
      obtain rfl := Option.some.inj hr₃
      rw [htake₃, List.take_take, min_eq_left hklen]
    · -- a later reign, which contains the prefix by induction
      have hb₃ := ih _ hx_lt r₃ hgt hr₃
      have hlen₃ := length_le_of_take_eq hb₃ hk
      have hlog₃ : r₃.log.take k = r.log.take k := by
        rw [← take_eq_of_initial (h.reign_base _ r₃ hr₃) hlen₃, hb₃]
      have hklen : k ≤ r'.base.length := by
        by_contra hshort
        have hx₃ : r.log[l'.length]? = some x := by
          rw [← getElem?_of_take_eq hlog₃ (by omega), ← List.getElem?_take_of_lt
            (show l'.length < r'.base.length by omega), ← htake₃, hconcat]
          simp
        have := h.reign_term t r hr x (List.mem_of_getElem? hx₃)
        omega
      rw [htake₃, List.take_take, min_eq_left hklen, hlog₃]

omit [DecidableEq ι] in
/-- The log of a reign that is not below `t` contains what is chosen in `t`. -/
theorem Inv.log_of_chosen (h : Inv Q s) {t k : ℕ} {r : Reign ι E} (hch : Chosen Q s t k r)
    {t' : ℕ} {r' : Reign ι E} (hle : t ≤ t') (hr' : s.reign t' = some r') :
    r'.log.take k = r.log.take k := by
  rcases Nat.eq_or_lt_of_le hle with rfl | hlt
  · rw [hch.1] at hr'
    rw [Option.some.inj hr']
  · have hb := h.base_of_chosen hch t' r' hlt hr'
    rw [← take_eq_of_initial (h.reign_base t' r' hr') (length_le_of_take_eq hb hch.2.1), hb]

omit [DecidableEq ι] in
/-- **State machine safety.** Two chosen prefixes agree where both reach. -/
theorem Inv.chosen_agree (h : Inv Q s) {t k t' k' : ℕ} {r r' : Reign ι E}
    (hch : Chosen Q s t k r) (hch' : Chosen Q s t' k' r') {n : ℕ} (hn : n < k) (hn' : n < k') :
    r.log[n]? = r'.log[n]? := by
  rcases le_total t t' with hle | hle
  · exact (getElem?_of_take_eq (h.log_of_chosen hch hle hch'.1) hn).symm
  · exact getElem?_of_take_eq (h.log_of_chosen hch' hle hch.1) hn'

/-- The log `p` is part of what is chosen in a term up to `t`. -/
def CommittedBy (Q : Quorums ι) (s : State ι E) (t : ℕ) (p : List E) : Prop :=
  ∃ t₀ k r, t₀ ≤ t ∧ Chosen Q s t₀ k r ∧ p <+: r.log.take k

omit [DecidableEq ι] in
theorem CommittedBy.mono {s' : State ι E} {t t' : ℕ} {p p' : List E}
    (h : CommittedBy Q s t p) (hle : Le s s') (ht : t ≤ t') (hp : p' <+: p) :
    CommittedBy Q s' t' p' := by
  obtain ⟨t₀, k, r, ht₀, hch, hpr⟩ := h
  obtain ⟨r', hch', htake⟩ := hch.mono hle
  exact ⟨t₀, k, r', ht₀.trans ht, hch', htake ▸ hp.trans hpr⟩

omit [DecidableEq ι] in
/-- What is committed up to term `t` is in the log of every reign from `t` on. -/
theorem CommittedBy.log (h : Inv Q s) {t t' : ℕ} {p : List E} {r : Reign ι E}
    (hp : CommittedBy Q s t p) (ht : t ≤ t') (hr : s.reign t' = some r) : p <+: r.log := by
  obtain ⟨t₀, k, r₀, ht₀, hch, hpr⟩ := hp
  rw [← h.log_of_chosen hch (ht₀.trans ht) hr] at hpr
  exact hpr.trans (List.take_prefix _ _)

omit [DecidableEq ι] in
/-- An entry of a committed log is a chosen entry. -/
theorem CommittedBy.entry {t n : ℕ} {p : List E} {e : E} (hp : CommittedBy Q s t p)
    (he : p[n]? = some e) :
    ∃ t₀ k r, Chosen Q s t₀ k r ∧ n < k ∧ r.log[n]? = some e := by
  obtain ⟨t₀, k, r, -, hch, q, hq⟩ := hp
  have hn := (List.getElem?_eq_some_iff.mp he).1
  have hlen := congrArg List.length hq
  rw [List.length_append, List.length_take] at hlen
  refine ⟨t₀, k, r, hch, by omega, ?_⟩
  rw [← List.getElem?_take_of_lt (show n < k by omega), ← hq, List.getElem?_append_left hn, he]

/-! ### Sequences of steps of one node -/

/-- Some steps of node `i`. -/
abbrev Moves (Q : Quorums ι) (i : ι) : State ι E → State ι E → Prop :=
  Relation.ReflTransGen (Step Q i)

/-- What steps of node `i` leave alone: the history, the durable state of the other nodes
and the reigns that others won. -/
structure Frame (i : ι) (s s' : State ι E) : Prop where
  le : Le s s'
  term : ∀ j, j ≠ i → s'.term j = s.term j
  log : ∀ j, j ≠ i → s'.log j = s.log j
  vote : ∀ j, j ≠ i → ∀ t, s'.vote j t = s.vote j t
  reign : ∀ j, j ≠ i → ∀ t r, r.winner = some j → (s'.reign t = some r ↔ s.reign t = some r)

omit [DecidableEq ι] [Termed E] in
theorem Frame.refl (i : ι) (s : State ι E) : Frame i s s :=
  ⟨Le.refl s, fun _ _ => rfl, fun _ _ => rfl, fun _ _ _ => rfl, fun _ _ _ _ _ => Iff.rfl⟩

omit [DecidableEq ι] [Termed E] in
theorem Frame.trans {i : ι} {s₁ s₂ s₃ : State ι E} (h₁ : Frame i s₁ s₂) (h₂ : Frame i s₂ s₃) :
    Frame i s₁ s₃ where
  le := h₁.le.trans h₂.le
  term j hj := (h₂.term j hj).trans (h₁.term j hj)
  log j hj := (h₂.log j hj).trans (h₁.log j hj)
  vote j hj t := (h₂.vote j hj t).trans (h₁.vote j hj t)
  reign j hj t r hr := (h₂.reign j hj t r hr).trans (h₁.reign j hj t r hr)

theorem Step.frame {i : ι} {s' : State ι E} (h : Step Q i s s') : Frame i s s' := by
  refine ⟨h.le, ?_, ?_, ?_, ?_⟩
  · intro j hj
    cases h with
    | enter t ht => exact Function.update_of_ne hj _ _
    | _ => rfl
  · intro j hj
    cases h with
    | adopt r j' k hr hjk hk hkeep hne => exact Function.update_of_ne hj _ _
    | _ => rfl
  · intro j hj t
    cases h with
    | stand hv hlt => exact update₂_of_ne _ _ (Or.inl hj)
    | grant c l hc hv hup => exact update₂_of_ne _ _ (Or.inl hj)
    | _ => rfl
  · intro j hj t r hw
    -- a reign that `i` wrote is won by `i`
    have hother : ∀ (u : ℕ) (q : Reign ι E), q.winner = some i →
        (∀ r', s.reign u = some r' → r'.winner = some i) →
        (Function.update s.reign u (some q) t = some r ↔ s.reign t = some r) := by
      intro u q hq hu
      by_cases htu : t = u
      · subst htu
        rw [Function.update_self]
        constructor
        · intro heq
          rw [← Option.some.inj heq, hq] at hw
          exact absurd (Option.some.inj hw).symm hj
        · intro heq
          rw [hu r heq] at hw
          exact absurd (Option.some.inj hw).symm hj
      · rw [Function.update_of_ne htu]
    cases h with
    | elect u l e P hi hP hvotes hnone he =>
      exact hother u _ rfl fun r' hr' => absurd (hnone.symm.trans hr') (by simp)
    | propose u q e hq hi he =>
      exact hother u _ hi fun r' hr' => by rw [← Option.some.inj (hq.symm.trans hr'), hi]
    | _ => exact Iff.rfl

theorem Moves.frame {i : ι} {s' : State ι E} (h : Moves Q i s s') : Frame i s s' := by
  induction h with
  | refl => exact Frame.refl i s
  | tail _ hs ih => exact ih.trans hs.frame

theorem Moves.inv {i : ι} {s' : State ι E} (h : Moves Q i s s') (hs : Inv Q s) : Inv Q s' := by
  induction h with
  | refl => exact hs
  | tail _ hs' ih => exact ih.step hs'

/-- The winner of the own term takes over the entry it just proposed and acknowledges
it. -/
theorem exists_takeOwn {i : ι} {r : Reign ι E} {e : E} (hr : s.reign (s.term i) = some r)
    (hlog : r.log = s.log i ++ [e]) :
    ∃ s', Moves Q i s s' ∧ s'.log i = r.log ∧ r.log.length ≤ s'.acked i (s.term i) ∧
      s'.term = s.term ∧ s'.vote = s.vote ∧ s'.reign = s.reign := by
  have hlen : (s.log i).length < r.log.length := by rw [hlog]; simp
  have hadopt := Step.adopt (Q := Q) s r (s.log i).length r.log.length hr hlen le_rfl
    (by rw [hlog]; simp) (by rw [hlog]; simp)
  rw [List.take_length] at hadopt
  have hack := Step.ack (Q := Q) (i := i)
    { s with log := Function.update s.log i r.log } r r.log.length hr le_rfl (by simp)
  refine ⟨_, (Relation.ReflTransGen.single hadopt).tail hack, ?_, ?_, rfl, rfl, rfl⟩
  · exact Function.update_self _ _ _
  · dsimp only
    rw [update₂_self]
    exact le_max_right _ _

end TermLog
end KvRaft
