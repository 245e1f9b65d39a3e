import SseSeal.OramAccess

/-! The blocks an instance holds, before and after one call of `access_handler`, and where
they lie: on the path to the leaf that the position map gives their index. -/
namespace OramBlocks

open Bytes Objects OramReadPathEviction StateExcept PathTree OramEviction OramAccess

theorem toInt_of_lt {i : ℕ} (h : i < 2 ^ 31) : toInt i = i := by
  have hm : i % 2 ^ 32 = i := Nat.mod_eq_of_lt (by omega)
  rw [toInt, hm, if_pos h]

theorem toInt_ne_neg_one {i : ℕ} (h : i < 2 ^ 31) : toInt i ≠ -1 := by
  rw [toInt_of_lt h]
  omega

theorem toUnsigned_natCast {i : ℕ} (h : i < 2 ^ 31) : toUnsigned i = i := by
  rw [toUnsigned]
  omega

section Call

variable {leaf i : ℕ} {o : Oram} {newLeaf : ℤ} {newData : Str} {op : Operation}

def offPath (leaf : ℕ) (o : Oram) : Multiset Block :=
  ∑ p ∈ Finset.range o.numBuckets \ path o.numLevels leaf,
    (real (o.storage.buckets p) : Multiset Block)

theorem heldOutside_path {u : Oram} (h : Frame o u) (hb : u.storage.buckets = o.storage.buckets) :
    heldOutside (path o.numLevels leaf) u = (u.stash : Multiset Block) + offPath leaf o := by
  rw [heldOutside, h.numBuckets, hb, offPath]

theorem held_eq (hw : WellFormed o) (hleaf : leaf < o.numLeaves) :
    held o = ((opened leaf o).stash : Multiset Block) + offPath leaf o := by
  have h := heldOutside_readPath (openLevels hw hleaf)
  rw [map_range_P, Finset.union_empty] at h
  rw [held, ← h]
  exact heldOutside_path readPath_frame readPath_buckets

theorem accessed_stash_real (hw : WellFormed o) (hi : i < 2 ^ 31) :
    ∀ b ∈ (accessed op i leaf newLeaf newData o).stash, b.index ≠ -1 := by
  have hs : ∀ b ∈ (opened leaf o).stash, b.index ≠ -1 := readPath_stash_real hw.stash_real
  by_cases h : ∃ b ∈ (opened leaf o).stash, b.index = toInt i
  · obtain ⟨b, pre, post, hst, _, hup, _⟩ := stash_hit op newLeaf newData h
    intro c hc
    change c ∈ stashUpdate _ _ _ _ _ at hc
    rw [hst] at hs
    rw [hup] at hc
    rcases List.mem_append.mp hc with hc | hc
    · exact hs c (List.mem_append_left _ hc)
    rcases List.mem_cons.mp hc with rfl | hc
    · rw [written_index]
      exact hs b (by simp)
    · exact hs c (by simp [hc])
  · intro c hc
    change c ∈ stashUpdate _ _ _ _ _ at hc
    rw [(stash_miss op newLeaf newData h).1] at hc
    rcases List.mem_append.mp hc with hc | hc
    · exact hs c hc
    · cases op
      · simp at hc
      · rw [List.mem_singleton.mp hc]
        exact toInt_ne_neg_one hi

theorem accessed_openLevels (hw : WellFormed o) (hleaf : leaf < o.numLeaves) (hi : i < 2 ^ 31) :
    OpenLevels (accessed op i leaf newLeaf newData o) leaf (List.range o.numLevels).reverse ∅ := by
  have hf := accessed_frame op i leaf newLeaf newData o
  have hopen := openLevels_reverse (openLevels (hf.wellFormed hw (accessed_stash_real hw hi))
    (hf.numLeaves ▸ hleaf))
  rwa [hf.numLevels] at hopen

theorem held_handled (hw : WellFormed o) (hleaf : leaf < o.numLeaves) (hi : i < 2 ^ 31) :
    held (handled op i leaf newLeaf newData o) =
      (stashUpdate op (toInt i) newLeaf newData (opened leaf o).stash : Multiset Block) +
        offPath leaf o := by
  have hf := accessed_frame op i leaf newLeaf newData o
  have hopen : OpenLevels (accessed op i leaf newLeaf newData o) leaf
      (List.range o.numLevels).reverse ∅ := accessed_openLevels hw hleaf hi
  have h := heldOutside_evictPath hopen (accessed_stash_real hw hi)
  rw [List.map_reverse, List.toFinset_reverse, hf.P, map_range_P, Finset.union_empty] at h
  refine h.trans (heldOutside_path hf ?_)
  exact readPath_buckets

theorem handled_effect (hw : WellFormed o) (hleaf : leaf < o.numLeaves) (hi : i < 2 ^ 31) :
    Effect op (toInt i) newLeaf newData (opened leaf o).stash (held o)
      (held (handled op i leaf newLeaf newData o))
      (stashAnswer op (toInt i) (opened leaf o).stash) := by
  rw [held_handled hw hleaf hi, held_eq hw hleaf]
  by_cases h : ∃ b ∈ (opened leaf o).stash, b.index = toInt i
  · obtain ⟨b, pre, post, hst, hb, hup, hans⟩ := stash_hit op newLeaf newData h
    rw [hans, hup]
    refine .hit b (((pre ++ post : List Block) : Multiset Block) + offPath leaf o) hb ?_ ?_
    · rw [hst, ← Multiset.cons_add, Multiset.cons_coe,
        Multiset.coe_eq_coe.mpr (List.perm_middle (a := b))]
    · rw [← Multiset.cons_add, Multiset.cons_coe,
        Multiset.coe_eq_coe.mpr (List.perm_middle (a := written op newData b))]
  · obtain ⟨hup, hans⟩ := stash_miss op newLeaf newData h
    rw [hans, hup]
    refine .miss (fun b hb hi => h ⟨b, hb, hi⟩) ?_
    cases op
    · simp
    · rw [← Multiset.cons_add, Multiset.cons_coe,
        Multiset.coe_eq_coe.mpr (List.perm_append_singleton _ _)]

theorem mem_held_of_mem_bucket {p : ℕ} (hp : p < o.numBuckets) {b : Block}
    (hb : b ∈ real (o.storage.buckets p)) : b ∈ held o := by
  refine Multiset.mem_add.mpr (Or.inr (Multiset.mem_sum.mpr ⟨p, ?_, hb⟩))
  simpa using hp

def Placed (o : Oram) (j : ℕ) : Prop :=
  ∀ p < o.numBuckets, ∀ b ∈ real (o.storage.buckets p), b.index = (j : ℤ) → Lodged o p b

/-- After an eviction along some levels of a path, the blocks of an index lie where they may,
if those outside these levels did. -/
theorem evictPath_placed {levels : List ℕ} (hopen : OpenLevels o leaf levels ∅)
    (hlt : ∀ l ∈ levels, l < o.numLevels) (hs : ∀ b ∈ o.stash, b.index ≠ -1) {j : ℕ}
    (hoff : ∀ p < o.numBuckets, p ∉ levels.map (o.P leaf) →
      ∀ b ∈ real (o.storage.buckets p), b.index = (j : ℤ) → Lodged o p b) :
    Placed (evictPath leaf levels o) j := by
  have hf : Frame o (evictPath leaf levels o) := evictPath_frame
  intro p hp b hb hj
  rw [hf.numBuckets] at hp
  rw [Frame.lodged hf]
  by_cases hin : p ∈ levels.map (o.P leaf)
  · exact evictPath_lodged hopen hlt hs hin hb
  · rw [evictPath_off hin] at hb
    exact hoff p hp hin b hb hj

theorem handled_placed (hw : WellFormed o) (hleaf : leaf < o.numLeaves) (hi : i < 2 ^ 31) {j : ℕ}
    (hoff : ∀ p < o.numBuckets, p ∉ path o.numLevels leaf →
      ∀ b ∈ real (o.storage.buckets p), b.index = (j : ℤ) → Lodged o p b) :
    Placed (handled op i leaf newLeaf newData o) j := by
  have hf := accessed_frame op i leaf newLeaf newData o
  refine evictPath_placed (accessed_openLevels hw hleaf hi) ?_ (accessed_stash_real hw hi) ?_
  · intro l hl
    rw [hf.numLevels]
    exact List.mem_range.mp (List.mem_reverse.mp hl)
  · intro p hp hout b hb hj
    rw [hf.numBuckets] at hp
    rw [hf.P, List.map_reverse, List.mem_reverse, ← List.mem_toFinset, map_range_P] at hout
    rw [accessed_buckets] at hb
    rw [Frame.lodged hf]
    exact hoff p hp hout b hb hj

theorem Placed.mem_path {j : ℕ} (h : Placed o j) (hj : j < 2 ^ 31) {p : ℕ}
    (hp : p < o.numBuckets) {b : Block} (hb : b ∈ real (o.storage.buckets p))
    (hi : b.index = (j : ℤ)) : p ∈ path o.numLevels (o.positionMap j) := by
  obtain ⟨l, hl, he⟩ := h p hp b hb hi
  rw [hi, toUnsigned_natCast hj, P_eq] at he
  exact PathTree.mem_path.mpr ⟨l, hl, he⟩

theorem mem_opened_stash (hw : WellFormed o) (hleaf : leaf < o.numLeaves) {b : Block}
    (hon : ∀ p < o.numBuckets, b ∈ real (o.storage.buckets p) → p ∈ path o.numLevels leaf)
    (hb : b ∈ held o) : b ∈ (opened leaf o).stash := by
  rw [held_eq hw hleaf] at hb
  rcases Multiset.mem_add.mp hb with hb | hb
  · exact hb
  obtain ⟨p, hp, hbp⟩ := Multiset.mem_sum.mp hb
  rw [Finset.mem_sdiff, Finset.mem_range] at hp
  exact absurd (hon p hp.1 hbp) hp.2

end Call

end OramBlocks
