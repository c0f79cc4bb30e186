import Mathlib.Data.Finset.Card
import Mathlib.Data.Finset.Lattice.Lemmas
import Mathlib.Data.List.Basic
import Mathlib.Data.List.Sort
import Mathlib.Logic.Function.Basic

/-!
# Logs replicated by elected terms

The mathematics behind leader-based replication, with no messages, no roles and no
crashes: nodes enter increasing terms, vote at most once in each, a quorum of votes
opens the *reign* of a term, the log of a reign only grows, and nodes adopt prefixes of
the log of the reign of their own term and acknowledge them.

A `Reign` records the log the winner held when it was elected (`base`) beside the log
it proposes (`log`). A vote records the voter's log at the time of the vote. Both are
history: no step overwrites them, so facts about them are monotone (`State.Le`).

Term `0` is a reign without a winner whose log is the common initial log, acknowledged
by everybody. It makes the entries that were there from the start an ordinary case of
"an entry of term `T` comes from the log of the reign of `T`".
-/

namespace KvRaft

/-- Entries that carry the term they were proposed in. -/
class Termed (E : Type) where
  term : E → ℕ

/-- A family of finite sets any two of which meet. -/
structure Quorums (ι : Type) where
  IsQuorum : Finset ι → Prop
  meet : ∀ {P Q : Finset ι}, IsQuorum P → IsQuorum Q → ∃ i, i ∈ P ∧ i ∈ Q

/-- The strict majorities of a finite set of members. -/
def Quorums.majority {ι : Type} [DecidableEq ι] (members : Finset ι) : Quorums ι where
  IsQuorum P := P ⊆ members ∧ members.card / 2 < P.card
  meet := by
    rintro P Q ⟨hP, hPc⟩ ⟨hQ, hQc⟩
    have hunion : (P ∪ Q).card ≤ members.card := Finset.card_le_card (Finset.union_subset hP hQ)
    have hsum := Finset.card_union_add_card_inter P Q
    have hpos : 0 < (P ∩ Q).card := by omega
    obtain ⟨i, hi⟩ := Finset.card_pos.mp hpos
    exact ⟨i, Finset.mem_inter.mp hi⟩

namespace TermLog

/-- The leadership of one term: who won it, the log held when it was won, and the log
proposed since. -/
structure Reign (ι E : Type) where
  winner : Option ι
  base : List E
  log : List E

/-- The durable state of every node, with the history of votes, reigns and
acknowledgements. -/
structure State (ι E : Type) where
  term : ι → ℕ
  log : ι → List E
  /-- The candidate a node voted for in a term, with the log the voter held then. -/
  vote : ι → ℕ → Option (ι × List E)
  reign : ℕ → Option (Reign ι E)
  /-- How long a prefix of the log of the reign of a term a node has acknowledged. -/
  acked : ι → ℕ → ℕ

variable {ι E : Type} [DecidableEq ι] [Termed E]

/-- The term of the last entry, `0` for the empty log. -/
def lastTerm (l : List E) : ℕ :=
  (l.getLast?.map Termed.term).getD 0

/-- The comparison a voter makes: the candidate's log `lc` is at least as up to date as
the voter's `l`. -/
def UpToDate (lc l : List E) : Prop :=
  lastTerm l < lastTerm lc ∨ lastTerm lc = lastTerm l ∧ l.length ≤ lc.length

/-- Point update of a function of two arguments. -/
def update₂ {α : Type} (f : ι → ℕ → α) (i : ι) (t : ℕ) (v : α) : ι → ℕ → α :=
  Function.update f i (Function.update (f i) t v)

@[simp] theorem update₂_self {α : Type} (f : ι → ℕ → α) (i : ι) (t : ℕ) (v : α) :
    update₂ f i t v i t = v := by
  simp [update₂]

theorem update₂_of_ne {α : Type} (f : ι → ℕ → α) {i j : ι} {t u : ℕ} (v : α)
    (h : j ≠ i ∨ u ≠ t) : update₂ f i t v j u = f j u := by
  unfold update₂
  by_cases hj : j = i
  · subst hj
    rw [Function.update_self, Function.update_of_ne (by simpa using h)]
  · rw [Function.update_of_ne hj]

/-- A step of node `i`. -/
inductive Step (Q : Quorums ι) (i : ι) : State ι E → State ι E → Prop
  /-- `i` enters a term that is not below its own. -/
  | enter (s : State ι E) (t : ℕ) (ht : s.term i ≤ t) :
      Step Q i s { s with term := Function.update s.term i t }
  /-- `i` stands for election in its term, which no entry of its log has reached. -/
  | stand (s : State ι E) (hv : s.vote i (s.term i) = none)
      (hlt : ∀ e ∈ s.log i, Termed.term e < s.term i) :
      Step Q i s { s with vote := update₂ s.vote i (s.term i) (some (i, s.log i)) }
  /-- `i` votes in its term for `c`, which stands with the log `l`. -/
  | grant (s : State ι E) (c : ι) (l : List E) (hc : s.vote c (s.term i) = some (c, l))
      (hv : s.vote i (s.term i) = none) (hup : UpToDate l (s.log i)) :
      Step Q i s { s with vote := update₂ s.vote i (s.term i) (some (c, s.log i)) }
  /-- `i` wins term `t` with a quorum of votes and proposes its first entry. -/
  | elect (s : State ι E) (t : ℕ) (l : List E) (e : E) (P : Finset ι)
      (hi : s.vote i t = some (i, l)) (hP : Q.IsQuorum P)
      (hvotes : ∀ q ∈ P, ∃ l', s.vote q t = some (i, l'))
      (hnone : s.reign t = none) (he : Termed.term e = t) :
      Step Q i s { s with
        reign := Function.update s.reign t (some ⟨some i, l, l ++ [e]⟩) }
  /-- The winner of term `t` proposes one more entry. -/
  | propose (s : State ι E) (t : ℕ) (r : Reign ι E) (e : E) (hr : s.reign t = some r)
      (hi : r.winner = some i) (he : Termed.term e = t) :
      Step Q i s { s with
        reign := Function.update s.reign t (some { r with log := r.log ++ [e] }) }
  /-- `i` replaces its log by the first `k` entries of the reign of its term. It keeps
  the `j` entries below the first disagreement. -/
  | adopt (s : State ι E) (r : Reign ι E) (j k : ℕ) (hr : s.reign (s.term i) = some r)
      (hjk : j < k) (hk : k ≤ r.log.length) (hkeep : (s.log i).take j = r.log.take j)
      (hne : (s.log i)[j]? ≠ r.log[j]?) :
      Step Q i s { s with log := Function.update s.log i (r.log.take k) }
  /-- `i` acknowledges the first `k` entries of the reign of its term. -/
  | ack (s : State ι E) (r : Reign ι E) (k : ℕ) (hr : s.reign (s.term i) = some r)
      (hk : k ≤ r.log.length) (hkeep : (s.log i).take k = r.log.take k) :
      Step Q i s { s with
        acked := update₂ s.acked i (s.term i) (max (s.acked i (s.term i)) k) }

/-! ### Order of states -/

/-- The reigns of `s` survive in `s'`: same winner, same base, a log that only grew. -/
def ReignLe (s s' : State ι E) : Prop :=
  ∀ t r, s.reign t = some r →
    ∃ r', s'.reign t = some r' ∧ r'.winner = r.winner ∧ r'.base = r.base ∧ r.log <+: r'.log

/-- The history of `s` survives in `s'`. -/
structure Le (s s' : State ι E) : Prop where
  term : ∀ i, s.term i ≤ s'.term i
  vote : ∀ i t v, s.vote i t = some v → s'.vote i t = some v
  reign : ReignLe s s'
  acked : ∀ i t, s.acked i t ≤ s'.acked i t

omit [DecidableEq ι] [Termed E] in
theorem ReignLe.refl (s : State ι E) : ReignLe s s :=
  fun _ r h => ⟨r, h, rfl, rfl, List.prefix_refl _⟩

omit [DecidableEq ι] [Termed E] in
theorem ReignLe.trans {s₁ s₂ s₃ : State ι E} (h₁ : ReignLe s₁ s₂) (h₂ : ReignLe s₂ s₃) :
    ReignLe s₁ s₃ := by
  intro t r hr
  obtain ⟨r', hr', hw', hb', hp'⟩ := h₁ t r hr
  obtain ⟨r'', hr'', hw'', hb'', hp''⟩ := h₂ t r' hr'
  exact ⟨r'', hr'', hw''.trans hw', hb''.trans hb', hp'.trans hp''⟩

omit [DecidableEq ι] [Termed E] in
theorem Le.refl (s : State ι E) : Le s s :=
  ⟨fun _ => le_rfl, fun _ _ _ h => h, ReignLe.refl s, fun _ _ => le_rfl⟩

omit [DecidableEq ι] [Termed E] in
theorem Le.trans {s₁ s₂ s₃ : State ι E} (h₁ : Le s₁ s₂) (h₂ : Le s₂ s₃) : Le s₁ s₃ where
  term i := (h₁.term i).trans (h₂.term i)
  vote i t v h := h₂.vote i t v (h₁.vote i t v h)
  reign := h₁.reign.trans h₂.reign
  acked i t := (h₁.acked i t).trans (h₂.acked i t)

omit [Termed E] in
/-- Writing a vote that was not cast yet loses no vote. -/
theorem vote_update₂ {s : State ι E} {i : ι} {u : ℕ} (hv : s.vote i u = none)
    (w : Option (ι × List E)) {j : ι} {t : ℕ} {v : ι × List E} (h : s.vote j t = some v) :
    update₂ s.vote i u w j t = some v := by
  rw [update₂_of_ne]
  · exact h
  · by_contra hc
    push Not at hc
    rw [hc.1, hc.2, hv] at h
    exact absurd h (by simp)

omit [DecidableEq ι] [Termed E] in
/-- Opening the reign of a term that has none loses no reign. -/
theorem reignLe_elect {s : State ι E} {t : ℕ} (hnone : s.reign t = none) (r : Reign ι E) :
    ReignLe s { s with reign := Function.update s.reign t (some r) } := by
  intro u ru hu
  have hne : u ≠ t := by rintro rfl; rw [hnone] at hu; exact absurd hu (by simp)
  exact ⟨ru, by simpa [Function.update_of_ne hne] using hu, rfl, rfl, List.prefix_refl _⟩

omit [DecidableEq ι] [Termed E] in
/-- Growing the log of one reign loses no reign. -/
theorem reignLe_propose {s : State ι E} {t : ℕ} {r : Reign ι E} (hr : s.reign t = some r)
    (e : E) :
    ReignLe s { s with
      reign := Function.update s.reign t (some { r with log := r.log ++ [e] }) } := by
  intro u ru hu
  by_cases hut : u = t
  · subst hut
    obtain rfl : r = ru := Option.some.inj (hr.symm.trans hu)
    exact ⟨{ r with log := r.log ++ [e] }, by simp, rfl, rfl, List.prefix_append _ _⟩
  · exact ⟨ru, by simpa [Function.update_of_ne hut] using hu, rfl, rfl, List.prefix_refl _⟩

/-- A step extends the history. -/
theorem Step.le {Q : Quorums ι} {i : ι} {s s' : State ι E} (h : Step Q i s s') : Le s s' := by
  cases h with
  | enter t ht =>
    refine ⟨fun j => ?_, fun _ _ _ h => h, ReignLe.refl s, fun _ _ => le_rfl⟩
    by_cases hj : j = i
    · subst hj; simpa using ht
    · simp [Function.update_of_ne hj]
  | stand hv hlt =>
    exact ⟨fun _ => le_rfl, fun _ _ _ h => vote_update₂ hv _ h, ReignLe.refl s,
      fun _ _ => le_rfl⟩
  | grant c l hc hv hup =>
    exact ⟨fun _ => le_rfl, fun _ _ _ h => vote_update₂ hv _ h, ReignLe.refl s,
      fun _ _ => le_rfl⟩
  | elect t l e P hi hP hvotes hnone he =>
    exact ⟨fun _ => le_rfl, fun _ _ _ h => h, reignLe_elect hnone _, fun _ _ => le_rfl⟩
  | propose t r e hr hi he =>
    exact ⟨fun _ => le_rfl, fun _ _ _ h => h, reignLe_propose hr e, fun _ _ => le_rfl⟩
  | adopt r j k hr hjk hk hkeep hne =>
    exact ⟨fun _ => le_rfl, fun _ _ _ h => h, ReignLe.refl s, fun _ _ => le_rfl⟩
  | ack r k hr hk hkeep =>
    refine ⟨fun _ => le_rfl, fun _ _ _ h => h, ReignLe.refl s, fun j t => ?_⟩
    by_cases hjt : j = i ∧ t = s.term i
    · obtain ⟨rfl, rfl⟩ := hjt
      simp
    · have hne : j ≠ i ∨ t ≠ s.term i := by tauto
      exact (update₂_of_ne s.acked _ hne).ge

/-! ### Logs made of reigns -/

/-- Every entry of `l` comes, with everything below it, from the log of the reign of its
term. -/
def Grounded (s : State ι E) (l : List E) : Prop :=
  ∀ k e, l[k]? = some e →
    ∃ r, s.reign (Termed.term e) = some r ∧ l.take (k + 1) = r.log.take (k + 1)

/-- What the prefixes `i` acknowledged below term `u` say about the log `l`: `l` still
has them, or a reign in between was won with a log that disagrees. -/
def Kept (s : State ι E) (i : ι) (u : ℕ) (l : List E) : Prop :=
  ∀ t r k, t < u → s.reign t = some r → k ≤ s.acked i t →
    l.take k = r.log.take k ∨
      ∃ t' r', t < t' ∧ t' < u ∧ s.reign t' = some r' ∧ r'.base.take k ≠ r.log.take k

section Prefix

variable {α : Type} {l m : List α}

/-- A prefix agrees with the whole on every length it reaches. -/
theorem take_eq_of_initial (h : l <+: m) {k : ℕ} (hk : k ≤ l.length) :
    l.take k = m.take k := by
  obtain ⟨t, rfl⟩ := h
  rw [List.take_append_of_le_length hk]

theorem getElem?_of_take_eq {j k : ℕ} (h : l.take k = m.take k) (hj : j < k) :
    l[j]? = m[j]? := by
  rw [← List.getElem?_take_of_lt hj, h, List.getElem?_take_of_lt hj]

theorem take_eq_of_take_eq {j k : ℕ} (h : l.take k = m.take k) (hj : j ≤ k) :
    l.take j = m.take j := by
  have h' := congrArg (List.take j) h
  rwa [List.take_take, List.take_take, min_eq_left hj] at h'

theorem length_le_of_take_eq {k : ℕ} (h : l.take k = m.take k) (hk : k ≤ m.length) :
    k ≤ l.length := by
  have h' := congrArg List.length h
  rw [List.length_take, List.length_take] at h'
  omega

end Prefix

omit [DecidableEq ι] in
theorem Grounded.mono {s s' : State ι E} (hle : ReignLe s s') {l : List E}
    (h : Grounded s l) : Grounded s' l := by
  intro k e he
  obtain ⟨r, hr, ht⟩ := h k e he
  obtain ⟨r', hr', -, -, hp⟩ := hle _ r hr
  refine ⟨r', hr', ht.trans (take_eq_of_initial hp ?_)⟩
  have hlen := (List.getElem?_eq_some_iff.mp he).1
  exact length_le_of_take_eq ht.symm hlen

omit [DecidableEq ι] in
/-- **Log matching.** Two grounded logs with entries of one term at one index agree up
to that index. -/
theorem Grounded.matching {s : State ι E} {l m : List E} (hl : Grounded s l)
    (hm : Grounded s m) {k : ℕ} {e e' : E} (he : l[k]? = some e) (he' : m[k]? = some e')
    (hterm : Termed.term e = Termed.term e') : l.take (k + 1) = m.take (k + 1) := by
  obtain ⟨r, hr, ht⟩ := hl k e he
  obtain ⟨r', hr', ht'⟩ := hm k e' he'
  rw [hterm, hr'] at hr
  obtain rfl := Option.some.inj hr
  exact ht.trans ht'.symm

omit [DecidableEq ι] in
theorem Grounded.take {s : State ι E} {l : List E} (h : Grounded s l) (n : ℕ) :
    Grounded s (l.take n) := by
  intro k e he
  have hk : k < n := by
    have hlt := (List.getElem?_eq_some_iff.mp he).1
    rw [List.length_take] at hlt
    omega
  rw [List.getElem?_take_of_lt hk] at he
  obtain ⟨r, hr, ht⟩ := h k e he
  refine ⟨r, hr, ?_⟩
  rw [List.take_take, min_eq_left hk, ht]

omit [DecidableEq ι] in
/-- Appending an entry of term `t` to the log of the reign of `t` keeps logs grounded. -/
theorem Grounded.concat {s : State ι E} {l : List E} {e : E} {r : Reign ι E}
    (h : Grounded s l) (hr : s.reign (Termed.term e) = some r) (hlog : r.log = l ++ [e]) :
    Grounded s (l ++ [e]) := by
  intro k x hx
  by_cases hk : k < l.length
  · rw [List.getElem?_append_left hk] at hx
    obtain ⟨r', hr', ht⟩ := h k x hx
    exact ⟨r', hr', by rw [List.take_append_of_le_length hk, ht]⟩
  · rw [List.getElem?_append_right (by omega)] at hx
    obtain rfl : e = x := by
      have hx' := List.mem_of_getElem? hx
      rw [List.mem_singleton] at hx'
      exact hx'.symm
    exact ⟨r, hr, by rw [hlog]⟩

omit [Termed E] [DecidableEq ι] in
/-- `Kept` survives the growth of the reigns, as long as `i` acknowledges nothing new. -/
theorem Kept.mono {s s' : State ι E} {i : ι} {u : ℕ} {l : List E} (h : Kept s i u l)
    (hle : ReignLe s s') (hack : ∀ t, t < u → s'.acked i t = s.acked i t)
    (hlen : ∀ t r, s.reign t = some r → s.acked i t ≤ r.log.length)
    (hnone : ∀ t, s.reign t = none → s.acked i t = 0) : Kept s' i u l := by
  intro t r' k ht hr' hk
  rw [hack t ht] at hk
  cases hr : s.reign t with
  | none =>
    obtain rfl : k = 0 := by have := hnone t hr; omega
    exact Or.inl (by simp)
  | some r =>
    obtain ⟨r'', hr'', -, -, hp⟩ := hle t r hr
    obtain rfl := Option.some.inj (hr''.symm.trans hr')
    have hkr := hlen t r hr
    rw [← take_eq_of_initial hp (by omega)]
    refine (h t r k ht hr hk).imp id ?_
    rintro ⟨t', q, h1, h2, hq, hne⟩
    obtain ⟨q', hq', -, hb, -⟩ := hle t' q hq
    exact ⟨t', q', h1, h2, hq', by rw [hb]; exact hne⟩

end TermLog
end KvRaft
