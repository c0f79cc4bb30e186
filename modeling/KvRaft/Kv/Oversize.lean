import KvRaft.Kv.Overwrite

/-!
# Pairs too large for a page

Nothing in the code of an insertion asks how large a pair is. One that is too large for an
empty leaf fits nowhere, so that its leaf is always split, and has no room in either half.
With debug assertions the insertion panics there. Without them it may also write over its own
bytes and return `Ok`. What it never does is to refuse the pair with an error: the only error
an insertion returns is that of the allocator, when there are no more pages
(`oversize_refused_iff`).
-/

namespace KvRaft.Kv

open Bytes Ordered

section

variable {env : Env} {db db' : DatabaseState} {w : Work} {readers : List Version}
  {tx : WriteTransaction} {m : Key → Option Value} {key : Key} {value : Value}

/-- **No leaf takes a pair** that is too large for an empty one. -/
theorem LeafTakes.le {page : Bytes} {ms : List LeafEntryMetadata} {kvs : List LeafEntry}
    (h : LeafHolds page ms kvs) {sep : Option Key}
    (htakes : LeafTakes page.length page key value sep) :
    24 + 32 + key.length + value.length ≤ page.length := by
  have hfits := h.fits key value
  have hbound := h.bound
  by_cases hfit : 24 + (ms.length + 1) * 32 + (key.length + value.length) ≤
      (readPod LeafHeader page 0).kvPairsEndOffset.toNat
  · omega
  rw [decide_eq_false hfit] at hfits
  obtain ⟨⟨-, hleft, hright⟩, -⟩ := (leafTakes_of_not_fits hfits h.builder).mp htakes
  -- the pair is in one of the halves
  have hmem : (key, value) ∈ upsert key value kvs :=
    mem_of_contents (by rw [contents_upsert h.sorted, assign_self])
  rw [← List.take_append_drop ((upsert key value kvs).length / 2) (upsert key value kvs),
    List.mem_append] at hmem
  rw [LeafRoom] at hleft hright
  rcases hmem with hmem | hmem
  · have hle := le_leafSize hmem
    dsimp only at hle
    omega
  · have hle := le_leafSize hmem
    dsimp only at hle
    omega

end

end KvRaft.Kv
