import SseSeal.OramInvariant

/-! Eviction is maximal. One pass from the leaf to the root, in the order of the stash, leaves
no block that a bucket with a dummy could take, neither in the stash nor higher on the path. -/
namespace OramMaximal

open Bytes Objects OramReadPathEviction StateExcept PathTree ListPicking OramEviction OramAccess
open OramBlocks OramCalls OramMemory OramInvariant

variable {o u : Oram} {c : Call} {codec : Codec Node} {leaf l : ℕ} {levels : List ℕ} {b : Block}

def Full (o : Oram) (p : ℕ) : Prop :=
  (o.storage.buckets p).length = o.bucketSize ∧ ∀ b ∈ o.storage.buckets p, b.index ≠ -1

/-- A block may be in the bucket that the path to a leaf has at a level. -/
def Fits (o : Oram) (leaf l : ℕ) (b : Block) : Prop :=
  o.P (o.positionMap (toUnsigned b.index)) l = o.P leaf l

/-- Nothing on the path to a leaf, or in the stash, could be moved deeper on the path. -/
structure Maximal (leaf : ℕ) (o : Oram) : Prop where
  stash : ∀ b ∈ o.stash, ∀ l < o.numLevels, Fits o leaf l b → Full o (o.P leaf l)
  root : o.stash ≠ [] → Full o 0
  deeper : ∀ l < o.numLevels, ∀ b ∈ real (o.storage.buckets (o.P leaf l)),
    ∀ k, l < k → k < o.numLevels → Fits o leaf k b → Full o (o.P leaf k)

theorem Frame.fits {b : Block} (h : Frame o u) : Fits u leaf l b ↔ Fits o leaf l b := by
  simp only [Fits, h.P, h.positionMap]

theorem Frame.full {p : ℕ} (h : Frame o u)
    (hb : u.storage.buckets p = o.storage.buckets p) : Full u p ↔ Full o p := by
  rw [Full, Full, h.bucketSize, hb]

theorem evictStep_full (hs : ∀ b ∈ o.stash, b.index ≠ -1) (hb : b ∈ (evictStep leaf l o).stash)
    (hfits : Fits o leaf l b) : Full (evictStep leaf l o) (o.P leaf l) := by
  have hlen : (evicted leaf l o).length = o.bucketSize :=
    length_take_of_left Block.index
      (fun index => decide (o.P leaf l = o.P (o.positionMap (toUnsigned index)) l)) o.bucketSize
      o.stash hb (by simpa using hfits.symm)
  have hfull : fullBucket leaf l o = evicted leaf l o := by
    rw [fullBucket, hlen]
    simp
  rw [Full, evictStep_buckets, if_pos rfl, hfull]
  refine ⟨hlen, ?_⟩
  intro d hd
  exact hs d (List.mem_filter.mp (List.mem_of_mem_take hd)).1

theorem evictPath_full {away : Finset ℕ} (hopen : OpenLevels o leaf levels away)
    (hs : ∀ b ∈ o.stash, b.index ≠ -1) (hb : b ∈ (evictPath leaf levels o).stash)
    (hl : l ∈ levels) (hfits : Fits o leaf l b) :
    Full (evictPath leaf levels o) (o.P leaf l) := by
  induction levels generalizing o with
  | nil => cases hl
  | cons k levels ih =>
    have hf := evictStep_frame leaf k o
    have hs' : ∀ b ∈ (evictStep leaf k o).stash, b.index ≠ -1 := fun d hd =>
      hs d (mem_of_mem_eraseKeys hd)
    by_cases hrest : l ∈ levels
    · have hrec := ih (hopen.step hf).2 hs' hb hrest ((Frame.fits hf).mpr hfits)
      rwa [hf.P] at hrec
    · obtain rfl : l = k := by
        rcases List.mem_cons.mp hl with he | hl
        · exact he
        · exact absurd hl hrest
      have hlast : o.P leaf l ∉ levels.map ((evictStep leaf l o).P leaf) := by
        rw [hf.P]
        exact (List.nodup_cons.mp hopen.nodup).1
      exact (Frame.full evictPath_frame (evictPath_off hlast)).mpr
        (evictStep_full hs (evictPath_stash_subset hb) hfits)

theorem evictPath_append (pre post : List ℕ) :
    evictPath leaf (pre ++ post) o = evictPath leaf post (evictPath leaf pre o) :=
  List.foldl_append

/-- A block evicted to a level was in the stash while the deeper buckets were filled. -/
theorem evictPath_deeper {pre post : List ℕ} (hopen : OpenLevels o leaf (pre ++ l :: post) ∅)
    (hs : ∀ b ∈ o.stash, b.index ≠ -1)
    (hb : b ∈ real ((evictPath leaf (pre ++ l :: post) o).storage.buckets (o.P leaf l))) {k : ℕ}
    (hk : k ∈ pre) (hfits : Fits o leaf k b) :
    Full (evictPath leaf (pre ++ l :: post) o) (o.P leaf k) := by
  have hf : Frame o (evictPath leaf pre o) := evictPath_frame
  have hstep := evictStep_frame leaf l (evictPath leaf pre o)
  have hnodup : (pre.map (o.P leaf) ++ o.P leaf l :: post.map (o.P leaf)).Nodup := by
    simpa using hopen.nodup
  have hs' : ∀ d ∈ (evictPath leaf pre o).stash, d.index ≠ -1 := fun d hd =>
    hs d (evictPath_stash_subset hd)
  have hpre : OpenLevels o leaf pre ∅ := ⟨fun i hi => hopen.bound i (List.mem_append_left _ hi),
    hnodup.of_append_left, by simp⟩
  rw [evictPath_append] at hb ⊢
  have hmem : b ∈ (evictPath leaf pre o).stash := by
    have hlast : o.P leaf l ∉ post.map ((evictStep leaf l (evictPath leaf pre o)).P leaf) := by
      rw [(hf.trans hstep).P]
      exact (List.nodup_cons.mp hnodup.of_append_right).1
    rw [evictPath, List.foldl_cons, ← evictPath, evictPath_off hlast, evictStep_buckets, hf.P,
      if_pos rfl, real_fullBucket hs'] at hb
    exact (List.mem_filter.mp (List.mem_of_mem_take hb)).1
  have hlater : o.P leaf k ∉ (l :: post).map ((evictPath leaf pre o).P leaf) := by
    rw [hf.P]
    intro hin
    exact List.disjoint_of_nodup_append hnodup (List.mem_map_of_mem hk) hin
  exact (Frame.full evictPath_frame (evictPath_off hlater)).mpr
    (evictPath_full hpre hs hmem hk hfits)

theorem range_reverse_split {n : ℕ} (hl : l < n) :
    (List.range n).reverse =
      (List.range' (l + 1) (n - (l + 1))).reverse ++ l :: (List.range l).reverse := by
  have hsplit : List.range n = List.range l ++ l :: List.range' (l + 1) (n - (l + 1)) := by
    have happ := List.range'_append_1 (s := 0) (m := l) (n := n - (l + 1) + 1)
    have hn : l + (n - (l + 1) + 1) = n := by omega
    rw [Nat.zero_add, hn, List.range'_succ] at happ
    rw [List.range_eq_range', List.range_eq_range']
    exact happ.symm
  rw [hsplit]
  simp

theorem handled_maximal {i : ℕ} {newLeaf : ℤ} {newData : Str} {op : Operation}
    (hw : WellFormed o) (hleaf : leaf < o.numLeaves) (hi : i < 2 ^ 31) :
    Maximal leaf (handled op i leaf newLeaf newData o) := by
  have hf := accessed_frame op i leaf newLeaf newData o
  have hopen : OpenLevels (accessed op i leaf newLeaf newData o) leaf
      (List.range o.numLevels).reverse ∅ := accessed_openLevels hw hleaf hi
  have hs : ∀ b ∈ (accessed op i leaf newLeaf newData o).stash, b.index ≠ -1 :=
    accessed_stash_real hw hi
  rw [handled]
  generalize accessed op i leaf newLeaf newData o = v at hf hopen hs ⊢
  have he : Frame v (evictPath leaf (List.range o.numLevels).reverse v) := evictPath_frame
  have hstash : ∀ b ∈ (evictPath leaf (List.range o.numLevels).reverse v).stash,
      ∀ l < o.numLevels, Fits v leaf l b →
      Full (evictPath leaf (List.range o.numLevels).reverse v) (v.P leaf l) := by
    intro b hb l hl hfits
    exact evictPath_full hopen hs hb (by simpa using hl) hfits
  constructor
  · intro b hb l hl hfits
    rw [he.numLevels, hf.numLevels] at hl
    rw [he.P]
    exact hstash b hb l hl ((Frame.fits he).mp hfits)
  · intro hne
    obtain ⟨b, hb⟩ := List.exists_mem_of_ne_nil _ hne
    -- every path starts at the root
    have hroot : ∀ x < 2 ^ (o.numLevels - 1), v.P x 0 = 0 := by
      intro x hx
      rw [P_eq, hf.numLevels, bucketAt_root hx]
    have hx : v.positionMap (toUnsigned b.index) < 2 ^ (o.numLevels - 1) := by
      rw [hf.positionMap, ← hw.leaves_eq]
      exact hw.positions_lt _
    have hfits : Fits v leaf 0 b := by
      rw [Fits, hroot _ hx, hroot _ (hw.leaves_eq ▸ hleaf)]
    have hfull := hstash b hb 0 hw.levels_pos hfits
    rwa [hroot _ (hw.leaves_eq ▸ hleaf)] at hfull
  · intro l hl b hb k hlk hk hfits
    rw [he.numLevels, hf.numLevels] at hl hk
    rw [he.P] at hb ⊢
    rw [range_reverse_split hl] at hopen hb hfits he ⊢
    refine evictPath_deeper hopen hs hb ?_ ((Frame.fits he).mp hfits)
    rw [List.mem_reverse, List.mem_range']
    exact ⟨k - (l + 1), by omega, by omega⟩

def stashAfter {α : Type} : EStateM.Result StorageError Oram α → ℕ
  | .ok _ o => o.stash.length
  | .error _ _ => 0

theorem ok_of_stashAfter {α : Type} {r : EStateM.Result StorageError Oram α}
    (h : stashAfter r = 1) : ∃ a o, r = .ok a o ∧ o.stash.length = 1 := by
  cases r with
  | ok a o => exact ⟨a, o, rfl, h⟩
  | error e o => cases h

/-- After every call of every run, whatever the random values, the blocks in the stash and those
on the path of the call are as deep on that path as the full buckets let them be. -/
theorem eviction_maximal (codec : Codec Node) {bucketSize numBlocks : ℕ} {storage : Storage}
    {randGen : RandomForOram}
    (h : construct.run (blank bucketSize numBlocks storage randGen) = .ok ⟨⟩ o)
    {calls : List Call} (hc : ∀ c ∈ calls, c.InRange) {answers : List Str} {v : Oram}
    (hrun : (runAll codec calls).run o = .ok answers v) (hin : c.InRange) {answer : Str}
    (hcall : (c.run codec).run v = .ok answer u) : Maximal (v.positionMap c.index) u := by
  have hw := (holds_of_runAll (holds_construct h) hc hrun).wellFormed
  have hleaf : v.positionMap c.index < (c.prepare v).numLeaves := by
    rw [Call.prepare_numLeaves]
    exact hw.positions_lt _
  rw [(Call.run_ok_next hw hcall).2]
  exact handled_maximal (Call.prepare_wellFormed hw) hleaf (Call.index_lt hin)

/-- All paths meet in the root and a leaf, which hold a block each. -/
theorem eviction_maximal_third_block :
    ∃ o answers v answer u, construct.run (blank 1 2 .new ⟨0, fun _ => 0, 0⟩) = .ok ⟨⟩ o ∧
      (runAll ObjectArchive.nodeCodec [.access .write 0 [97], .access .write 1 [98]]).run o =
        .ok answers v ∧
      ((Call.access .write 2 [99]).run ObjectArchive.nodeCodec).run v = .ok answer u ∧
      Maximal (v.positionMap 2) u ∧ u.stash.length = 1 := by
  have hc : ∀ c ∈ [Call.access .write 0 [97], .access .write 1 [98]], c.InRange := by
    simp [Call.InRange]
  have hin : (Call.access .write 2 [99]).InRange := by simp [Call.InRange]
  have hstash : stashAfter ((do
      construct
      let _ ← runAll ObjectArchive.nodeCodec [.access .write 0 [97], .access .write 1 [98]]
      (Call.access .write 2 [99]).run ObjectArchive.nodeCodec : OramM Str).run
      (blank 1 2 .new ⟨0, fun _ => 0, 0⟩)) = 1 := by decide +kernel
  obtain ⟨answer, u, hrun, hlen⟩ := ok_of_stashAfter hstash
  obtain ⟨_, o, hbuild, hrun⟩ := bind_ok hrun
  obtain ⟨answers, v, hrun, hcall⟩ := bind_ok hrun
  exact ⟨o, answers, v, answer, u, hbuild, hrun, hcall,
    eviction_maximal ObjectArchive.nodeCodec hbuild hc hrun hin hcall, hlen⟩

end OramMaximal
