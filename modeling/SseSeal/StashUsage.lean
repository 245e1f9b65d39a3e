import SseSeal.OramMaximal
import SseSeal.PathOverflow

/-! How many blocks the stash holds. A Path ORAM with unlimited room in its buckets is driven by
the same calls and random values; after any run the stash holds exactly what the buckets at the
top of the tree could not take of its blocks. -/
namespace StashUsage

open Bytes Objects OramReadPathEviction StateExcept PathTree OramEviction OramAccess OramBlocks
open OramCalls OramMemory OramInvariant OramMaximal ListPicking PathOverflow

/-- A Path ORAM with unlimited room in its buckets: the indices written, the leaf of each, the
level of its block on the path to the leaf, and the random values. -/
structure Roomy where
  items : Finset ℕ
  leaf : ℕ → ℕ
  level : ℕ → ℕ
  randGen : RandomForOram

namespace Roomy

/-- Nothing is written; the constructor has drawn a leaf for every address. -/
def start (numBlocks : ℕ) (randGen : RandomForOram) : Roomy where
  items := ∅
  leaf := fun j => if j < numBlocks
    then leafAt { randGen with bound := 2 ^ Nat.clog 2 numBlocks } (randGen.used + j) else 0
  level := fun _ => 0
  randGen :=
    { randGen with bound := 2 ^ Nat.clog 2 numBlocks, used := randGen.used + numBlocks }

/-- The leaf of every index after a call: `access` draws one, `access_direct` changes none. -/
def newLeaf (s : Roomy) : Call → ℕ → ℕ
  | .access _ i _ => Function.update s.leaf i s.randGen.leaf
  | .direct _ _ => s.leaf

def newRandGen (s : Roomy) : Call → RandomForOram
  | .access _ _ _ => s.randGen.advance
  | .direct op node => if op = .read ∨ node.id = 0 then s.randGen.advance else s.randGen

/-- A call takes every block on the path of the index and lets it down as far as its own path
goes the same way. -/
def call (levels : ℕ) (s : Roomy) (c : Call) : Roomy where
  items := match c.op with
    | .read => s.items
    | .write => insert c.index s.items
  leaf := s.newLeaf c
  level := fun j => if j = c.index then meet levels (s.newLeaf c j) (s.leaf c.index)
    else max (s.level j) (meet levels (s.leaf j) (s.leaf c.index))
  randGen := s.newRandGen c

theorem call_level_self (levels : ℕ) (s : Roomy) (c : Call) : (s.call levels c).level c.index =
    meet levels ((s.call levels c).leaf c.index) (s.leaf c.index) := if_pos rfl

theorem call_level_of_ne (levels : ℕ) (s : Roomy) {c : Call} {j : ℕ} (h : j ≠ c.index) :
    (s.call levels c).level j = max (s.level j) (meet levels (s.leaf j) (s.leaf c.index)) :=
  if_neg h

/-- How many blocks find no room, with `room` places in every bucket. -/
def overflow (levels room : ℕ) (s : Roomy) : ℕ :=
  PathOverflow.overflow levels room s.leaf s.level s.items.val

end Roomy

def roomyRun (numBlocks : ℕ) (randGen : RandomForOram) (calls : List Call) : Roomy :=
  calls.foldl (Roomy.call (Nat.clog 2 numBlocks + 1)) (Roomy.start numBlocks randGen)

def layout (o : Oram) : Layout Block where
  stash := o.stash
  bucket p := real (o.storage.buckets p)

/-- The blocks of an instance are those of the unlimited one, and the buckets between a block
and its place there are full. -/
structure Refines (o : Oram) (s : Roomy) : Prop where
  leaf : s.leaf = o.positionMap
  randGen : s.randGen = o.randGen
  items : (held o).map (fun b => toUnsigned b.index) = s.items.val
  tight : Tight o.numLevels o.bucketSize (fun b => s.leaf (toUnsigned b.index))
    (fun b => s.level (toUnsigned b.index)) (layout o)

variable {o : Oram} {s : Roomy} {c : Call} {b : Block} {m : ℤ → Option Str} {leaf : ℕ}

theorem layout_items (hw : WellFormed o) : (layout o).items o.numLevels = held o := by
  rw [Layout.items, held, heldOutside, ← hw.buckets_eq, Finset.sdiff_empty]
  rfl

theorem Refines.stash_length (h : Refines o s) (hw : WellFormed o) :
    o.stash.length = s.overflow o.numLevels o.bucketSize := by
  have hcard := h.tight.stash_card
  rw [layout_items hw] at hcard
  refine Eq.trans ?_ (hcard.trans ?_)
  · rfl
  · rw [Roomy.overflow, PathOverflow.overflow, PathOverflow.overflow]
    apply Finset.sup_congr rfl
    intro T _
    rw [crowd, crowd, ← h.items, Multiset.countP_map, Multiset.countP_eq_card_filter]

theorem mem_stashUpdate {op : Operation} {index newLeaf : ℤ} {newData : Str} {stash : List Block}
    (h : b ∈ stashUpdate op index newLeaf newData stash) : b.index = index ∨ b ∈ stash := by
  by_cases hin : ∃ b ∈ stash, b.index = index
  · obtain ⟨d, pre, post, rfl, hd, hup, _⟩ := stash_hit op newLeaf newData hin
    rw [hup] at h
    rcases List.mem_append.mp h with h | h
    · exact Or.inr (List.mem_append_left _ h)
    rcases List.mem_cons.mp h with rfl | h
    · exact Or.inl ((written_index _ _ _).trans hd)
    · exact Or.inr (List.mem_append_right _ (List.mem_cons_of_mem _ h))
  · rw [(stash_miss op newLeaf newData hin).1] at h
    rcases List.mem_append.mp h with h | h
    · exact Or.inr h
    · cases op with
      | read => cases h
      | write =>
        rw [List.mem_singleton.mp h]
        exact Or.inl rfl

theorem mem_readPath_stash {levels : List ℕ} (h : b ∈ (readPath leaf levels o).stash) :
    b ∈ o.stash ∨ ∃ l ∈ levels, b ∈ real (o.storage.buckets (o.P leaf l)) := by
  induction levels generalizing o with
  | nil => exact Or.inl h
  | cons i levels ih =>
    rcases ih (o := readStep leaf i o) h with h | ⟨l, hl, h⟩
    · rcases List.mem_append.mp h with h | h
      · exact Or.inl h
      · exact Or.inr ⟨i, List.mem_cons_self, h⟩
    · exact Or.inr ⟨l, List.mem_cons_of_mem _ hl, h⟩

theorem evictPath_mem {levels : List ℕ} (hs : ∀ b ∈ o.stash, b.index ≠ -1) {p : ℕ}
    (hp : p ∈ levels.map (o.P leaf))
    (hb : b ∈ real ((evictPath leaf levels o).storage.buckets p)) : b ∈ o.stash := by
  induction levels generalizing o with
  | nil => cases hp
  | cons l levels ih =>
    have hf := evictStep_frame leaf l o
    by_cases hin : p ∈ levels.map (o.P leaf)
    · exact mem_of_mem_eraseKeys
        (ih (fun d hd => hs d (mem_of_mem_eraseKeys hd)) (hf.P ▸ hin) hb)
    · obtain rfl : p = o.P leaf l := (List.mem_cons.mp hp).resolve_right hin
      have hoff := evictPath_off (o := evictStep leaf l o) (hf.P ▸ hin)
      rw [evictPath, List.foldl_cons, ← evictPath, hoff, evictStep_buckets, if_pos rfl,
        real_fullBucket hs] at hb
      exact (List.mem_filter.mp (List.mem_of_mem_take hb)).1

theorem mem_accessed_of_opened {op : Operation} {i : ℕ} {newLeaf : ℤ} {newData : Str}
    (hw : WellFormed o) (hi : i < 2 ^ 31)
    (hb : (layout (handled op i leaf newLeaf newData o)).Opened o.numLevels leaf b) :
    b ∈ (accessed op i leaf newLeaf newData o).stash := by
  have hf := accessed_frame op i leaf newLeaf newData o
  rcases hb with hb | ⟨p, hp, hb⟩
  · exact evictPath_stash_subset (Multiset.mem_coe.mp hb)
  · refine evictPath_mem (accessed_stash_real hw hi) (p := p) ?_ (Multiset.mem_coe.mp hb)
    rwa [hf.P, List.map_reverse, List.mem_reverse, ← List.mem_toFinset, map_range_P]

theorem opened_of_mem_accessed {op : Operation} {i : ℕ} {newLeaf : ℤ} {newData : Str}
    (hi : i < 2 ^ 31) (hne : b.index ≠ i)
    (hb : b ∈ (accessed op i leaf newLeaf newData o).stash) :
    (layout o).Opened o.numLevels leaf b := by
  have hstash := (mem_stashUpdate hb).resolve_left (by rwa [toInt_of_lt hi])
  rcases mem_readPath_stash hstash with h | ⟨l, hl, h⟩
  · exact Or.inl h
  · refine Or.inr ⟨o.P leaf l, ?_, h⟩
    rw [← map_range_P, List.mem_toFinset]
    exact List.mem_map_of_mem hl

theorem layout_prepare : layout (c.prepare o) = layout o := by
  rw [layout, Call.prepare_stash, Call.prepare_storage]
  rfl

theorem Refines.newLeaf (h : Refines o s) : s.newLeaf c = (c.prepare o).positionMap := by
  cases c with
  | access op i newData =>
    simp only [Roomy.newLeaf, Call.prepare, h.leaf, h.randGen]
  | direct op node =>
    simp only [Roomy.newLeaf, Call.prepare, h.leaf]
    split <;> rfl

theorem Refines.newRandGen (h : Refines o s) : s.newRandGen c = (c.prepare o).randGen := by
  cases c with
  | access op i newData => simp only [Roomy.newRandGen, Call.prepare, h.randGen]
  | direct op node =>
    simp only [Roomy.newRandGen, Call.prepare, h.randGen]
    split <;> rfl

theorem index_of_toUnsigned {i : ℤ} {k : ℕ} (hi : 0 ≤ i ∧ i < 2 ^ 31) (h : toUnsigned i = k) :
    i = k := by
  rw [toUnsigned] at h
  omega

theorem Refines.items_next (h : Refines o s) (hm : Holds o m) (hs : Indexed o)
    (hin : c.InRange) (codec : Codec Node) :
    (held (c.next codec o)).map (fun b => toUnsigned b.index) =
      (s.call o.numLevels c).items.val := by
  have he := next_effect hm.wellFormed hin codec
  have hfound : ∀ b ∈ held o, b.index = (c.index : ℤ) →
      b ∈ (opened (o.positionMap c.index) (c.prepare o)).stash := fun b =>
    mem_stash_of_held hm.wellFormed hin (hm.placed _ (Call.index_lt hin))
  have hkeys := h.items
  unfold Indexed at hs
  have hkey : toUnsigned (c.index : ℤ) = c.index := toUnsigned_natCast (Call.index_lt hin)
  generalize held o = before at he hfound hkeys hs
  generalize held (c.next codec o) = after at he ⊢
  generalize c.answer o = answer at he
  cases he with
  | hit b rest hb hbefore hafter =>
    have hsame : after.map (fun b => toUnsigned b.index) = s.items.val := by
      rw [← hkeys, hafter, hbefore, Multiset.map_cons, Multiset.map_cons, written_index]
    have hmem : c.index ∈ s.items := by
      rw [← Finset.mem_val, ← hkeys, hbefore, Multiset.map_cons, hb, hkey]
      exact Multiset.mem_cons_self _ _
    rw [hsame, Roomy.call]
    cases hop : c.op with
    | read => rfl
    | write => exact congrArg Finset.val (Finset.insert_eq_self.mpr hmem).symm
  | miss hnone hafter =>
    rw [Roomy.call]
    cases hop : c.op with
    | read =>
      rw [hop] at hafter
      rw [hafter]
      exact hkeys
    | write =>
      rw [hop] at hafter
      have hfree : c.index ∉ s.items := by
        rw [← Finset.mem_val, ← hkeys, Multiset.mem_map]
        intro hmem
        obtain ⟨b, hb, he⟩ := hmem
        have hi := index_of_toUnsigned (hs b hb) he
        exact hnone b (hfound b hb hi) hi
      rw [hafter, Multiset.map_cons, hkeys, hkey]
      exact (Finset.insert_val_of_notMem hfree).symm

theorem full_layout {p : ℕ} (h : OramMaximal.Full o p) : (layout o).Full o.bucketSize p := by
  have hall : real (o.storage.buckets p) = o.storage.buckets p :=
    List.filter_eq_self.mpr fun b hb => by simpa using h.2 b hb
  change (real (o.storage.buckets p)).length = o.bucketSize
  rw [hall, h.1]

theorem next_packed (hm : Holds o m) (hs : Shaped o) (hin : c.InRange) (codec : Codec Node) :
    Packed o.numLevels o.bucketSize
      (fun b => (c.prepare o).positionMap (toUnsigned b.index)) (o.positionMap c.index)
      (layout (c.next codec o)) := by
  have hw := hm.wellFormed
  have hwp := Call.prepare_wellFormed (c := c) hw
  have hleaf : o.positionMap c.index < (c.prepare o).numLeaves := by
    rw [Call.prepare_numLeaves]
    exact hw.positions_lt _
  have hmax : Maximal (o.positionMap c.index) (c.next codec o) :=
    handled_maximal hwp hleaf (Call.index_lt hin)
  have hf : Frame (c.prepare o) (c.next codec o) := handled_frame _ _ _ _ _ _
  have hshape := hs.next hw hin codec
  have hrep := representation (holds_next hm hin codec).1 hshape
  have hlevels : (c.next codec o).numLevels = o.numLevels := by
    rw [hf.numLevels, Call.prepare_numLevels]
  have hroom : (c.next codec o).bucketSize = o.bucketSize := by
    rw [hf.bucketSize, Call.prepare_bucketSize]
  have hbuckets : (c.next codec o).numBuckets = 2 ^ o.numLevels - 1 := by
    rw [hf.numBuckets, Call.prepare_numBuckets, hw.buckets_eq]
  have hP : ∀ a l, (c.next codec o).P a l = bucketAt o.numLevels a l := by
    intro a l
    rw [P_eq, hlevels]
  have hy : o.positionMap c.index < 2 ^ (o.numLevels - 1) := hw.leaves_eq ▸ hw.positions_lt _
  have hfits : ∀ (b : Block) (l : ℕ),
      bucketAt o.numLevels ((c.prepare o).positionMap (toUnsigned b.index)) l =
        bucketAt o.numLevels (o.positionMap c.index) l →
      OramMaximal.Fits (c.next codec o) (o.positionMap c.index) l b := by
    intro b l he
    rw [OramMaximal.Fits, hP, hP, hf.positionMap]
    exact he
  have hfull : ∀ l,
      OramMaximal.Full (c.next codec o) ((c.next codec o).P (o.positionMap c.index) l) →
      (layout (c.next codec o)).Full o.bucketSize
        (bucketAt o.numLevels (o.positionMap c.index) l) := by
    intro l h
    rw [hP] at h
    rw [← hroom]
    exact full_layout h
  constructor
  · intro p hp
    have hlen := hshape.sized p (hbuckets ▸ hp)
    exact (List.length_filter_le _ _).trans (hroom ▸ hlen).le
  · intro l hl b hb
    have he := hrep.lodged l (hlevels ▸ hl) _ bucketAt_ge (bucketAt_lt_next hy hl) b
      (Multiset.mem_coe.mp hb)
    rw [hP, hf.positionMap] at he
    exact he.symm
  · intro b hb l hl he
    exact hfull l (hmax.stash b (Multiset.mem_coe.mp hb) l (hlevels ▸ hl) (hfits b l he))
  · intro l hl b hb k hlk hk he
    refine hfull k (hmax.deeper l (hlevels ▸ hl) b ?_ k hlk (hlevels ▸ hk) (hfits b k he))
    rw [hP]
    exact Multiset.mem_coe.mp hb

/-- The unlimited instance takes a call as the instance does. -/
theorem Refines.next (h : Refines o s) (hm : Holds o m) (hs : Shaped o) (hin : c.InRange)
    (codec : Codec Node) : Refines (c.next codec o) (s.call o.numLevels c) := by
  have hw := hm.wellFormed
  have hwp := Call.prepare_wellFormed (c := c) hw
  have hi := Call.index_lt hin
  have hf : Frame (c.prepare o) (c.next codec o) := handled_frame _ _ _ _ _ _
  have hlevels : (c.next codec o).numLevels = o.numLevels := by
    rw [hf.numLevels, Call.prepare_numLevels]
  have hroom : (c.next codec o).bucketSize = o.bucketSize := by
    rw [hf.bucketSize, Call.prepare_bucketSize]
  have hleaf : (s.call o.numLevels c).leaf = (c.prepare o).positionMap := h.newLeaf
  have hlt : ∀ j, (c.prepare o).positionMap j < 2 ^ (o.numLevels - 1) := by
    intro j
    have hj := hwp.positions_lt j
    rwa [hwp.leaves_eq, Call.prepare_numLevels] at hj
  have hy : o.positionMap c.index < 2 ^ (o.numLevels - 1) := hw.leaves_eq ▸ hw.positions_lt _
  -- a block of another index keeps its leaf and is settled
  have hset : ∀ b : Block, toUnsigned b.index ≠ c.index →
      Settled o.numLevels (o.positionMap c.index) (fun b => s.leaf (toUnsigned b.index))
        (fun b => s.level (toUnsigned b.index))
        (fun b => (s.call o.numLevels c).leaf (toUnsigned b.index))
        (fun b => (s.call o.numLevels c).level (toUnsigned b.index)) b := by
    intro b hne
    constructor
    · rw [hleaf, Call.prepare_positionMap_of_ne hne, h.leaf]
    · rw [Roomy.call_level_of_ne _ _ hne, h.leaf]
  have hpacked := next_packed hm hs hin codec
  have hoff : ∀ p, p ∉ path o.numLevels (o.positionMap c.index) →
      (c.next codec o).storage.buckets p = o.storage.buckets p := by
    intro p hp
    rw [Call.next, handled, evictPath_off ?_, accessed_buckets, Call.prepare_storage]
    rwa [(accessed_frame _ _ _ _ _ _).P, List.map_reverse, List.mem_reverse,
      ← List.mem_toFinset, map_range_P, Call.prepare_numLevels]
  refine ⟨?_, ?_, h.items_next hm hs.indexed hin codec, ?_⟩
  · rw [hleaf, hf.positionMap]
  · exact h.newRandGen.trans hf.randGen.symm
  rw [hlevels, hroom]
  refine h.tight.repack hy ?_ ?_ (by rwa [hleaf]) ?_ ?_ ?_
  · intro b
    rw [hleaf]
    exact hlt _
  · intro b
    dsimp only [Roomy.call]
    split
    · exact meet_lt hw.levels_pos
    · exact Nat.max_lt.mpr ⟨h.tight.home_lt b, meet_lt hw.levels_pos⟩
  · intro p hp
    change ((real ((c.next codec o).storage.buckets p) : List Block) : Multiset Block) = _
    rw [hoff p hp]
    rfl
  · intro p hp hout b hb
    apply hset
    intro he
    have hlt : p < o.numBuckets := by rwa [hw.buckets_eq]
    have hb := Multiset.mem_coe.mp hb
    have hidx := index_of_toUnsigned (hs.indexed b (mem_held_of_mem_bucket hlt hb)) he
    exact hout ((hm.placed _ hi).mem_path hi hlt hb hidx)
  · intro b hb
    by_cases he : toUnsigned b.index = c.index
    · refine Or.inl ?_
      rw [he, Roomy.call_level_self, h.leaf]
    · refine Or.inr ⟨?_, hset b he⟩
      rw [← Call.prepare_numLevels (c := c)] at hb ⊢
      have hmem := mem_accessed_of_opened hwp hi hb
      rw [← layout_prepare (c := c)]
      refine opened_of_mem_accessed hi ?_ hmem
      intro hne
      exact he (hne ▸ toUnsigned_natCast hi)

theorem Refines.runAll {codec : Codec Node} {calls : List Call} {answers : List Str} {u : Oram}
    (h : Refines o s) (hm : Holds o m) (hs : Shaped o) (hc : ∀ c ∈ calls, c.InRange)
    (hrun : (OramMemory.runAll codec calls).run o = .ok answers u) :
    Refines u (calls.foldl (Roomy.call o.numLevels) s) ∧ u.numLevels = o.numLevels ∧
      u.bucketSize = o.bucketSize := by
  induction calls generalizing o s m answers with
  | nil =>
    cases hrun
    exact ⟨h, rfl, rfl⟩
  | cons c calls ih =>
    have hin := hc c List.mem_cons_self
    obtain ⟨answer, v, hcall, hrun⟩ := bind_ok hrun
    obtain ⟨rest, w, hrest, hrun⟩ := bind_ok hrun
    cases hrun
    obtain ⟨_, rfl⟩ := Call.run_ok_next hm.wellFormed hcall
    have hf : Frame (c.prepare o) (c.next codec o) := handled_frame _ _ _ _ _ _
    have hlevels : (c.next codec o).numLevels = o.numLevels := by
      rw [hf.numLevels, Call.prepare_numLevels]
    have hroom : (c.next codec o).bucketSize = o.bucketSize := by
      rw [hf.bucketSize, Call.prepare_bucketSize]
    have hrec := ih (h.next hm hs hin codec) (holds_next hm hin codec).1
      (hs.next hm.wellFormed hin codec) (fun d hd => hc d (List.mem_cons_of_mem _ hd)) hrest
    rwa [hlevels, hroom] at hrec

section Construct

variable {bucketSize numBlocks : ℕ} {storage : Storage} {randGen : RandomForOram}

theorem refines_construct
    (h : construct.run (blank bucketSize numBlocks storage randGen) = .ok ⟨⟩ o) :
    Refines o (Roomy.start numBlocks randGen) := by
  have hf := construct_fresh h
  have hw := hf.wellFormed
  have hstash : ∀ b, b ∉ (layout o).stash := by
    intro b hb
    have hmem : b ∈ held o := Multiset.mem_add.mpr (Or.inl hb)
    rw [hf.nothing_held] at hmem
    exact Multiset.notMem_zero b hmem
  have hbucket : ∀ p < 2 ^ o.numLevels - 1, ∀ b, b ∉ (layout o).bucket p := by
    intro p hp b hb
    have hmem := mem_held_of_mem_bucket (hw.buckets_eq ▸ hp) (Multiset.mem_coe.mp hb)
    rw [hf.nothing_held] at hmem
    exact Multiset.notMem_zero b hmem
  have hleaf : (Roomy.start numBlocks randGen).leaf = o.positionMap := by
    obtain rfl := construct_ok h
    rfl
  have hlt : ∀ j, o.positionMap j < 2 ^ (o.numLevels - 1) := by
    intro j
    rw [← hw.leaves_eq]
    exact hw.positions_lt j
  refine ⟨hleaf, ?_, ?_, ⟨?_, ?_, ?_, ?_⟩, ?_, ?_⟩
  · obtain rfl := construct_ok h
    rfl
  · rw [hf.nothing_held]
    rfl
  · intro p hp
    rw [Multiset.eq_zero_of_forall_notMem (hbucket p hp)]
    exact Nat.zero_le _
  · intro b
    exact hw.levels_pos
  · intro b
    rw [hleaf]
    exact hlt _
  · intro p hp b hb
    exact absurd hb (hbucket p hp b)
  · intro b hb
    exact absurd hb (hstash b)
  · intro v hv b hb
    exact absurd hb (hbucket _ (bucketAt_lt (hleaf ▸ hlt _) hv) b)

variable {codec : Codec Node} {calls : List Call} {answers : List Str} {u : Oram}
variable (h : construct.run (blank bucketSize numBlocks storage randGen) = .ok ⟨⟩ o)
variable (hc : ∀ c ∈ calls, c.InRange) (hrun : (runAll codec calls).run o = .ok answers u)
include h hc hrun

theorem refines_run : Refines u (roomyRun numBlocks randGen calls) ∧ WellFormed u ∧
    u.numLevels = Nat.clog 2 numBlocks + 1 ∧ u.bucketSize = bucketSize := by
  have hm := holds_construct h
  obtain ⟨href, hlevels, hroom⟩ := (refines_construct h).runAll hm (shaped_construct h) hc hrun
  have hw := (holds_of_runAll hm hc hrun).wellFormed
  obtain rfl := construct_ok h
  exact ⟨href, hw, hlevels, hroom⟩

theorem stash_length_run : u.stash.length =
    (roomyRun numBlocks randGen calls).overflow (Nat.clog 2 numBlocks + 1) bucketSize := by
  obtain ⟨href, hw, hlevels, hroom⟩ := refines_run h hc hrun
  rw [href.stash_length hw, hlevels, hroom]

end Construct

def writtenIndices (calls : List Call) : Finset ℕ :=
  ((calls.filter fun c => c.op = .write).map Call.index).toFinset

theorem foldl_items (levels : ℕ) (calls : List Call) (s : Roomy) :
    (calls.foldl (Roomy.call levels) s).items = s.items ∪ writtenIndices calls := by
  induction calls generalizing s with
  | nil => simp [writtenIndices]
  | cons c calls ih =>
    rw [List.foldl_cons, ih, Roomy.call]
    cases hop : c.op with
    | read => simp [writtenIndices, hop]
    | write => simp [writtenIndices, hop]

section Run

variable {bucketSize numBlocks : ℕ} {storage : Storage} {randGen : RandomForOram}
variable {calls : List Call} {answers : List Str} {u : Oram}

theorem roomyRun_items (numBlocks : ℕ) (randGen : RandomForOram) (calls : List Call) :
    (roomyRun numBlocks randGen calls).items = writtenIndices calls := by
  rw [roomyRun, foldl_items]
  exact Finset.empty_union _

/-- After any run, whatever the random values, the stash holds as many blocks as a subtree at
the root is overcrowded by if buckets are unlimited, at most; no arrangement of the blocks above
their places in unlimited buckets has a smaller stash. -/
theorem stash_is_overflow (codec : Codec Node)
    (h : construct.run (blank bucketSize numBlocks storage randGen) = .ok ⟨⟩ o)
    (hc : ∀ c ∈ calls, c.InRange) (hrun : (runAll codec calls).run o = .ok answers u) :
    u.stash.length =
        (roomyRun numBlocks randGen calls).overflow (Nat.clog 2 numBlocks + 1) bucketSize ∧
      ∀ L : Layout Block, L.items u.numLevels = held u → PathOverflow.Fits u.numLevels bucketSize
        (fun b => (roomyRun numBlocks randGen calls).leaf (toUnsigned b.index))
        (fun b => (roomyRun numBlocks randGen calls).level (toUnsigned b.index)) L →
        u.stash.length ≤ L.stash.card := by
  obtain ⟨href, hw, hlevels, hroom⟩ := refines_run h hc hrun
  constructor
  · exact stash_length_run h hc hrun
  · intro L hitems hfits
    have hle := hfits.overflow_le
    have hcard := href.tight.stash_card
    rw [layout_items hw, hroom] at hcard
    rw [hitems, ← hcard] at hle
    exact hle

/-- All three blocks belong to the root and one leaf, which take two of them. -/
theorem third_block_stays :
    ∃ o answers u, construct.run (blank 1 2 .new ⟨0, fun _ => 0, 0⟩) = .ok ⟨⟩ o ∧
      (runAll ObjectArchive.nodeCodec [.access .write 0 [97], .access .write 1 [98],
        .access .write 2 [99]]).run o = .ok answers u ∧ u.stash.length = 1 := by
  have hstash : stashAfter ((do
      construct
      runAll ObjectArchive.nodeCodec [.access .write 0 [97], .access .write 1 [98],
        .access .write 2 [99]] : OramM (List Str)).run
      (blank 1 2 .new ⟨0, fun _ => 0, 0⟩)) = 1 := by decide +kernel
  obtain ⟨answers, u, hrun, hlen⟩ := ok_of_stashAfter hstash
  obtain ⟨_, o, hbuild, hrun⟩ := bind_ok hrun
  exact ⟨o, answers, u, hbuild, hrun, hlen⟩

theorem stash_is_overflow_third_block :
    ∃ o answers u, construct.run (blank 1 2 .new ⟨0, fun _ => 0, 0⟩) = .ok ⟨⟩ o ∧
      (runAll ObjectArchive.nodeCodec [.access .write 0 [97], .access .write 1 [98],
        .access .write 2 [99]]).run o = .ok answers u ∧ u.stash.length = 1 ∧
      (roomyRun 2 ⟨0, fun _ => 0, 0⟩ [.access .write 0 [97], .access .write 1 [98],
        .access .write 2 [99]]).overflow (Nat.clog 2 2 + 1) 1 = 1 := by
  have hc : ∀ c ∈ [Call.access .write 0 [97], .access .write 1 [98], .access .write 2 [99]],
      c.InRange := by
    simp [Call.InRange]
  obtain ⟨o, answers, u, hbuild, hrun, hlen⟩ := third_block_stays
  obtain ⟨hexact, _⟩ := stash_is_overflow ObjectArchive.nodeCodec hbuild hc hrun
  exact ⟨o, answers, u, hbuild, hrun, hlen, hexact.symm.trans hlen⟩

/-- The same run with larger buckets never leaves more blocks in the stash. -/
theorem stash_antitone (codec : Codec Node) {more : ℕ} (hmore : bucketSize ≤ more)
    (h : construct.run (blank bucketSize numBlocks storage randGen) = .ok ⟨⟩ o)
    {storage' : Storage} {o' u' : Oram} {answers' : List Str}
    (h' : construct.run (blank more numBlocks storage' randGen) = .ok ⟨⟩ o')
    (hc : ∀ c ∈ calls, c.InRange) (hrun : (runAll codec calls).run o = .ok answers u)
    (hrun' : (runAll codec calls).run o' = .ok answers' u') :
    u'.stash.length ≤ u.stash.length := by
  rw [stash_length_run h hc hrun, stash_length_run h' hc hrun']
  exact overflow_antitone hmore

/-- The block that small buckets leave in the stash has room in larger ones. -/
theorem stash_antitone_third_block :
    ∃ o u answers o' u' answers', construct.run (blank 1 2 .new ⟨0, fun _ => 0, 0⟩) = .ok ⟨⟩ o ∧
      construct.run (blank 2 2 .new ⟨0, fun _ => 0, 0⟩) = .ok ⟨⟩ o' ∧
      (runAll ObjectArchive.nodeCodec [.access .write 0 [97], .access .write 1 [98],
        .access .write 2 [99]]).run o = .ok answers u ∧
      (runAll ObjectArchive.nodeCodec [.access .write 0 [97], .access .write 1 [98],
        .access .write 2 [99]]).run o' = .ok answers' u' ∧
      u.stash.length = 1 ∧ u'.stash.length ≤ u.stash.length ∧ u'.stash.length = 0 := by
  have hc : ∀ c ∈ [Call.access .write 0 [97], .access .write 1 [98], .access .write 2 [99]],
      c.InRange := by
    simp [Call.InRange]
  obtain ⟨o, answers, u, hbuild, hrun, hlen⟩ := third_block_stays
  have hstash : stashAfter ((do
      construct
      runAll ObjectArchive.nodeCodec [.access .write 0 [97], .access .write 1 [98],
        .access .write 2 [99]] : OramM (List Str)).run
      (blank 2 2 .new ⟨0, fun _ => 0, 0⟩)) = 0 := by decide +kernel
  have hs : ∀ k, Storage.new.fails k = false := fun _ => rfl
  have hbuild' : construct.run (blank 2 2 .new ⟨0, fun _ => 0, 0⟩) = .ok ⟨⟩ _ :=
    construct_returns (by decide) (by decide) (by decide) hs _
  obtain ⟨answers', u', hrun', _⟩ := holds_runAll (reliable_construct hs hbuild')
    (holds_construct hbuild') ObjectArchive.nodeCodec hc
  rw [run_bind_ok hbuild', hrun'] at hstash
  exact ⟨o, u, answers, _, u', answers', hbuild, hbuild', hrun, hrun', hlen,
    stash_antitone ObjectArchive.nodeCodec (by decide) hbuild hbuild' hc hrun hrun', hstash⟩

/-- The root alone keeps as many blocks out of the stash as a bucket holds: with no more indices
written than that, the stash is empty after every call. -/
theorem stash_le_written (codec : Codec Node)
    (h : construct.run (blank bucketSize numBlocks storage randGen) = .ok ⟨⟩ o)
    (hc : ∀ c ∈ calls, c.InRange) (hrun : (runAll codec calls).run o = .ok answers u) :
    u.stash.length ≤ (writtenIndices calls).card - bucketSize := by
  rw [stash_length_run h hc hrun, ← roomyRun_items numBlocks randGen calls]
  exact overflow_le_sub

theorem stash_le_written_pair :
    ∃ o answers u, construct.run (blank 2 2 .new ⟨0, fun _ => 0, 0⟩) = .ok ⟨⟩ o ∧
      (runAll ObjectArchive.nodeCodec [.access .write 0 [97], .access .write 1 [98],
        .access .read 0 []]).run o = .ok answers u ∧ u.stash.length = 0 := by
  have hs : ∀ k, Storage.new.fails k = false := fun _ => rfl
  have hc : ∀ c ∈ [Call.access .write 0 [97], .access .write 1 [98], .access .read 0 []],
      c.InRange := by
    simp [Call.InRange]
  have hbuild : construct.run (blank 2 2 .new ⟨0, fun _ => 0, 0⟩) = .ok ⟨⟩ _ :=
    construct_returns (by decide) (by decide) (by decide) hs _
  obtain ⟨answers, u, hrun, _⟩ := holds_runAll (reliable_construct hs hbuild)
    (holds_construct hbuild) ObjectArchive.nodeCodec hc
  have hle := stash_le_written ObjectArchive.nodeCodec hbuild hc hrun
  have hcard : (writtenIndices [Call.access .write 0 [97], .access .write 1 [98],
      .access .read 0 []]).card = 2 := by decide
  exact ⟨_, answers, u, hbuild, hrun, by omega⟩

/-- The indices of the blocks that the server stores. The archive of a bucket has them in the
clear. -/
def shownIndices (o : Oram) : Finset ℕ :=
  ((∑ p ∈ Finset.range o.numBuckets, (real (o.storage.buckets p) : Multiset Block)).map
    fun b => toUnsigned b.index).toFinset

/-- The server can tell which indices were written, but for the few whose blocks are in the stash,
and for all of them while they are no more than a bucket holds. -/
theorem server_sees_written (codec : Codec Node)
    (h : construct.run (blank bucketSize numBlocks storage randGen) = .ok ⟨⟩ o)
    (hc : ∀ c ∈ calls, c.InRange) (hrun : (runAll codec calls).run o = .ok answers u) :
    shownIndices u ⊆ writtenIndices calls ∧
      (shownIndices u).card + u.stash.length = (writtenIndices calls).card ∧
      ((writtenIndices calls).card ≤ bucketSize → shownIndices u = writtenIndices calls) := by
  obtain ⟨href, _, _, _⟩ := refines_run h hc hrun
  have hitems := roomyRun_items numBlocks randGen calls
  have hsplit : (u.stash : Multiset Block).map (fun b => toUnsigned b.index) +
      (∑ p ∈ Finset.range u.numBuckets, (real (u.storage.buckets p) : Multiset Block)).map
        (fun b => toUnsigned b.index) = (writtenIndices calls).val := by
    rw [← hitems, ← href.items, held, heldOutside, Finset.sdiff_empty, Multiset.map_add]
  have hnodup : ((∑ p ∈ Finset.range u.numBuckets,
      (real (u.storage.buckets p) : Multiset Block)).map fun b => toUnsigned b.index).Nodup := by
    have hall := (writtenIndices calls).nodup
    rw [← hsplit] at hall
    exact (Multiset.nodup_add.mp hall).2.1
  have hsub : shownIndices u ⊆ writtenIndices calls := by
    intro i hi
    rw [← Finset.mem_val, ← hsplit]
    exact Multiset.mem_add.mpr (Or.inr (Multiset.mem_toFinset.mp hi))
  have hcard : (shownIndices u).card + u.stash.length = (writtenIndices calls).card := by
    have hsum := congrArg Multiset.card hsplit
    rw [Multiset.card_add, Multiset.card_map, Multiset.coe_card] at hsum
    rw [shownIndices, Multiset.toFinset_card_of_nodup hnodup]
    exact (Nat.add_comm _ _).trans hsum
  refine ⟨hsub, hcard, ?_⟩
  intro hfew
  have hstash : u.stash.length ≤ (writtenIndices calls).card - bucketSize := by
    rw [stash_length_run h hc hrun, ← hitems]
    exact overflow_le_sub
  exact Finset.eq_of_subset_of_card_le hsub (by omega)

theorem server_sees_written_pair :
    ∃ o answers u, construct.run (blank 2 2 .new ⟨0, fun _ => 0, 0⟩) = .ok ⟨⟩ o ∧
      (runAll ObjectArchive.nodeCodec [.access .write 0 [97], .access .write 1 [98],
        .access .read 0 []]).run o = .ok answers u ∧ shownIndices u = {0, 1} := by
  have hs : ∀ k, Storage.new.fails k = false := fun _ => rfl
  have hc : ∀ c ∈ [Call.access .write 0 [97], .access .write 1 [98], .access .read 0 []],
      c.InRange := by
    simp [Call.InRange]
  have hbuild : construct.run (blank 2 2 .new ⟨0, fun _ => 0, 0⟩) = .ok ⟨⟩ _ :=
    construct_returns (by decide) (by decide) (by decide) hs _
  obtain ⟨answers, u, hrun, _⟩ := holds_runAll (reliable_construct hs hbuild)
    (holds_construct hbuild) ObjectArchive.nodeCodec hc
  obtain ⟨_, _, hall⟩ := server_sees_written ObjectArchive.nodeCodec hbuild hc hrun
  have hwritten : writtenIndices [Call.access .write 0 [97], .access .write 1 [98],
      .access .read 0 []] = {0, 1} := by decide
  rw [hwritten] at hall
  exact ⟨_, answers, u, hbuild, hrun, hall le_rfl⟩

end Run

end StashUsage
