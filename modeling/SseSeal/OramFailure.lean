import SseSeal.CallTrace
import SseSeal.OramMemory

/-! A call that a storage failure interrupts. Reading a path leaves copies in the stash of
blocks that stay in their buckets; an eviction has taken from the stash the blocks of the
bucket that is not written. Nothing undoes either, so what later reads return follows from
the copies that are left. -/
namespace OramFailure

open Bytes Objects OramReadPathEviction StateExcept PathTree OramEviction OramAccess OramBlocks
open OramCalls OramMemory KeyedMultiset ListPicking

variable {o u : Oram} {leaf i : ℕ} {newLeaf : ℤ} {newData : Str} {op : Operation}

theorem mem_held {b : Block} :
    b ∈ held o ↔ b ∈ o.stash ∨ ∃ p < o.numBuckets, b ∈ real (o.storage.buckets p) := by
  simp only [held, heldOutside, Multiset.mem_add, Multiset.mem_coe, Multiset.mem_sum,
    Finset.sdiff_empty, Finset.mem_range]

theorem mem_readPath_stash {levels : List ℕ} {b : Block} :
    b ∈ (readPath leaf levels o).stash ↔
      b ∈ o.stash ∨ ∃ l ∈ levels, b ∈ real (o.storage.buckets (o.P leaf l)) := by
  induction levels generalizing o with
  | nil => simp [readPath]
  | cons l levels ih =>
    have hstep : (readPath leaf (l :: levels) o).stash =
      (readPath leaf levels (readStep leaf l o)).stash := rfl
    rw [hstep, ih, (readStep_frame leaf l o).P]
    simp [readStep, Oram.logCall, or_assoc]

theorem mem_stashUpdate_of_ne {index : ℤ} {stash : List Block} {b : Block} (hb : b.index ≠ index) :
    b ∈ stashUpdate op index newLeaf newData stash ↔ b ∈ stash := by
  by_cases h : ∃ b ∈ stash, b.index = index
  · obtain ⟨d, pre, post, hst, hd, hup, _⟩ := stash_hit op newLeaf newData h
    have hne : b ≠ d := fun he => hb (he ▸ hd)
    have hne' : b ≠ written op newData d := fun he => hb (by rw [he, written_index, hd])
    rw [hup, hst]
    simp [hne, hne']
  · rw [(stash_miss op newLeaf newData h).1]
    cases op with
    | read => simp
    | write =>
      have hne : b ≠ ⟨newLeaf, index, newData⟩ := fun he => hb (he ▸ rfl)
      simp [hne]

theorem mem_stashUpdate {index : ℤ} {stash : List Block} {b : Block}
    (hb : b ∈ stashUpdate op index newLeaf newData stash) :
    b ∈ stash ∨ (op = .write ∧ b.data = newData) := by
  by_cases h : ∃ b ∈ stash, b.index = index
  · obtain ⟨d, pre, post, hst, hd, hup, _⟩ := stash_hit op newLeaf newData h
    rw [hup] at hb
    rcases List.mem_append.mp hb with hb | hb
    · exact Or.inl (hst ▸ List.mem_append_left _ hb)
    rcases List.mem_cons.mp hb with rfl | hb
    · cases op with
      | read => exact Or.inl (hst ▸ List.mem_append_right _ List.mem_cons_self)
      | write => exact Or.inr ⟨rfl, rfl⟩
    · exact Or.inl (hst ▸ List.mem_append_right _ (List.mem_cons_of_mem _ hb))
  · rw [(stash_miss op newLeaf newData h).1] at hb
    rcases List.mem_append.mp hb with hb | hb
    · exact Or.inl hb
    · cases op with
      | read => cases hb
      | write =>
        obtain rfl := List.mem_singleton.mp hb
        exact Or.inr ⟨rfl, rfl⟩

/-- The last storage call was one of `ReadBucket`. -/
def ReadThrew (u : Oram) : Prop := ∃ p, u.storage.calls.getLast? = some (.read p)

/-- The state where a storage call threw, and the blocks that had been taken from the stash for
the bucket that is not written: none if a `ReadBucket` threw, and the blocks chosen for the bucket
of its level if a `WriteBucket` did. -/
inductive Taken (op : Operation) (i leaf : ℕ) (newLeaf : ℤ) (newData : Str) (o : Oram) :
    Oram → List Block → Prop where
  | reading (pre post : List ℕ) (l : ℕ) : List.range o.numLevels = pre ++ l :: post →
      Taken op i leaf newLeaf newData o ((readPath leaf pre o).logCall (.read (o.P leaf l))) []
  | evicting (pre post : List ℕ) (l : ℕ) (w : Oram) :
      (List.range o.numLevels).reverse = pre ++ l :: post →
      w = evictPath leaf pre (accessed op i leaf newLeaf newData o) →
      Taken op i leaf newLeaf newData o ((evictStash leaf l w).logCall (.write (o.P leaf l)))
        (evicted leaf l w)

structure Residue (op : Operation) (i : ℕ) (newData : Str) (o u : Oram) (lost : List Block) :
    Prop where
  wellFormed : WellFormed u
  lost_length : lost.length ≤ o.bucketSize
  others : ∀ b : Block, b.index ≠ (i : ℤ) → ((b ∈ lost ∨ b ∈ held u) ↔ b ∈ held o)
  accessed : ∀ b ∈ held u, b ∈ held o ∨ (op = .write ∧ b.data = newData)
  placed : ∀ j, Placed o j → Placed u j
  read_threw : ReadThrew u → lost = [] ∧ u.storage.buckets = o.storage.buckets ∧
    o.stash <+: u.stash ∧ ∀ b, b ∈ held u ↔ b ∈ held o

theorem residue_reading {pre post : List ℕ} {l : ℕ} (hw : WellFormed o) (hleaf : leaf < o.numLeaves)
    (hl : List.range o.numLevels = pre ++ l :: post) :
    Residue op i newData o ((readPath leaf pre o).logCall (.read (o.P leaf l))) [] := by
  have hf : Frame o ((readPath leaf pre o).logCall (.read (o.P leaf l))) :=
    readPath_frame.trans ⟨rfl, rfl, rfl, rfl, rfl, rfl, rfl, rfl, rfl⟩
  have hbk : ((readPath leaf pre o).logCall (.read (o.P leaf l))).storage.buckets =
      o.storage.buckets := readPath_buckets
  have hheld : ∀ b, b ∈ held ((readPath leaf pre o).logCall (.read (o.P leaf l))) ↔
      b ∈ held o := by
    intro b
    rw [mem_held, mem_held, hbk, hf.numBuckets]
    change b ∈ (readPath leaf pre o).stash ∨ _ ↔ _
    rw [mem_readPath_stash]
    constructor
    · rintro ((hb | ⟨k, hk, hb⟩) | hb)
      · exact Or.inl hb
      · refine Or.inr ⟨_, (openLevels hw hleaf).bound k ?_, hb⟩
        rw [hl]
        exact List.mem_append_left _ hk
      · exact Or.inr hb
    · rintro (hb | hb)
      · exact Or.inl (Or.inl hb)
      · exact Or.inr hb
  refine ⟨hf.wellFormed hw (readPath_stash_real hw.stash_real), Nat.zero_le _, ?_, ?_, ?_, ?_⟩
  · intro b _
    simpa using hheld b
  · intro b hb
    exact Or.inl ((hheld b).mp hb)
  · intro j hp p hlt b hb hj
    rw [hf.numBuckets] at hlt
    rw [hbk] at hb
    exact (Frame.lodged hf).mpr (hp p hlt b hb hj)
  · intro _
    exact ⟨rfl, hbk, readPath_stash_prefix, hheld⟩

theorem mem_held_evictPath {levels : List ℕ} (hopen : OpenLevels o leaf levels ∅)
    (hs : ∀ b ∈ o.stash, b.index ≠ -1) {b : Block} :
    b ∈ held (evictPath leaf levels o) ↔ b ∈ o.stash ∨
      ∃ p < o.numBuckets, p ∉ levels.map (o.P leaf) ∧ b ∈ real (o.storage.buckets p) := by
  rw [held, heldOutside_evictPath hopen hs]
  simp only [heldOutside, Multiset.mem_add, Multiset.mem_coe, Multiset.mem_sum, Finset.mem_sdiff,
    Finset.mem_range, Finset.union_empty, List.mem_toFinset, and_assoc]

theorem openLevels_initial {pre post : List ℕ} {away : Finset ℕ}
    (h : OpenLevels o leaf (pre ++ post) away) : OpenLevels o leaf pre away := by
  refine ⟨fun l hl => h.bound l (List.mem_append_left _ hl), ?_,
    fun l hl => h.disjoint l (List.mem_append_left _ hl)⟩
  have hnodup := h.nodup
  rw [List.map_append] at hnodup
  exact hnodup.of_append_left

/-- The blocks taken from the stash for a bucket that is not written are held no more. -/
theorem mem_held_evictStash {l p : ℕ} {b : Block} :
    (b ∈ evicted leaf l o ∨ b ∈ held ((evictStash leaf l o).logCall (.write p))) ↔
      b ∈ held o := by
  have hstash : b ∈ evicted leaf l o ∨ b ∈ (evictStash leaf l o).stash ↔ b ∈ o.stash := by
    rw [← List.mem_append]
    exact (evicted_perm leaf l o).mem_iff
  rw [mem_held, mem_held, ← hstash, or_assoc]
  rfl

theorem mem_opened_or_off {pre post : List ℕ} {l : ℕ} (hw : WellFormed o)
    (hleaf : leaf < o.numLeaves) (hl : (List.range o.numLevels).reverse = pre ++ l :: post)
    {b : Block} :
    (b ∈ (opened leaf o).stash ∨
        ∃ p < o.numBuckets, p ∉ pre.map (o.P leaf) ∧ b ∈ real (o.storage.buckets p)) ↔
      b ∈ held o := by
  rw [mem_held, opened, mem_readPath_stash]
  constructor
  · rintro ((hb | ⟨k, hk, hb⟩) | ⟨p, hp, _, hb⟩)
    · exact Or.inl hb
    · exact Or.inr ⟨_, (openLevels hw hleaf).bound k hk, hb⟩
    · exact Or.inr ⟨p, hp, hb⟩
  · rintro (hb | ⟨p, hp, hb⟩)
    · exact Or.inl (Or.inl hb)
    by_cases hin : p ∈ pre.map (o.P leaf)
    · obtain ⟨k, hk, rfl⟩ := List.mem_map.mp hin
      refine Or.inl (Or.inr ⟨k, ?_, hb⟩)
      rw [← List.mem_reverse, hl]
      exact List.mem_append_left _ hk
    · exact Or.inr ⟨p, hp, hin, hb⟩

section Evicting

variable {pre post : List ℕ} {l : ℕ} (hw : WellFormed o) (hleaf : leaf < o.numLeaves)
  (hi : i < 2 ^ 31) (hl : (List.range o.numLevels).reverse = pre ++ l :: post)
include hw hleaf hi hl

theorem accessed_openLevels_initial :
    OpenLevels (accessed op i leaf newLeaf newData o) leaf pre ∅ :=
  openLevels_initial (hl ▸ accessed_openLevels hw hleaf hi)

theorem mem_held_evicting {b : Block} :
    b ∈ held (evictPath leaf pre (accessed op i leaf newLeaf newData o)) ↔
      b ∈ stashUpdate op i newLeaf newData (opened leaf o).stash ∨
        ∃ p < o.numBuckets, p ∉ pre.map (o.P leaf) ∧ b ∈ real (o.storage.buckets p) := by
  have hf := accessed_frame op i leaf newLeaf newData o
  rw [mem_held_evictPath (accessed_openLevels_initial hw hleaf hi hl) (accessed_stash_real hw hi),
    hf.P, accessed_buckets, hf.numBuckets, ← toInt_of_lt hi]
  rfl

theorem residue_evicting : Residue op i newData o
    ((evictStash leaf l (evictPath leaf pre (accessed op i leaf newLeaf newData o))).logCall
      (.write (o.P leaf l)))
    (evicted leaf l (evictPath leaf pre (accessed op i leaf newLeaf newData o))) := by
  have hf : Frame o (evictPath leaf pre (accessed op i leaf newLeaf newData o)) :=
    (accessed_frame op i leaf newLeaf newData o).trans evictPath_frame
  have hfu : Frame o ((evictStash leaf l (evictPath leaf pre
      (accessed op i leaf newLeaf newData o))).logCall (.write (o.P leaf l))) :=
    hf.trans ⟨rfl, rfl, rfl, rfl, rfl, rfl, rfl, rfl, rfl⟩
  refine ⟨hfu.wellFormed hw ?_, ?_, ?_, ?_, ?_, ?_⟩
  · intro b hb
    exact accessed_stash_real hw hi b (evictPath_stash_subset (mem_of_mem_eraseKeys hb))
  · rw [← hf.bucketSize]
    exact List.length_take_le _ _
  · intro b hb
    rw [mem_held_evictStash, mem_held_evicting hw hleaf hi hl, mem_stashUpdate_of_ne hb]
    exact mem_opened_or_off hw hleaf hl
  · intro b hb
    rcases (mem_held_evicting hw hleaf hi hl).mp (mem_held_evictStash.mp (Or.inr hb)) with hb | hb
    · rcases mem_stashUpdate hb with hb | hb
      · exact Or.inl ((mem_opened_or_off hw hleaf hl).mp (Or.inl hb))
      · exact Or.inr hb
    · exact Or.inl ((mem_opened_or_off hw hleaf hl).mp (Or.inr hb))
  · intro j hj
    have hfa := accessed_frame op i leaf newLeaf newData o
    have hplaced : Placed (evictPath leaf pre (accessed op i leaf newLeaf newData o)) j := by
      apply evictPath_placed (accessed_openLevels_initial hw hleaf hi hl) ?_
        (accessed_stash_real hw hi) ?_
      · intro k hk
        rw [hfa.numLevels, ← List.mem_range, ← List.mem_reverse, hl]
        exact List.mem_append_left _ hk
      · intro p hp _ b hb hbj
        rw [hfa.numBuckets] at hp
        rw [accessed_buckets] at hb
        exact (Frame.lodged hfa).mpr (hj p hp b hb hbj)
    exact hplaced
  · rintro ⟨p, hp⟩
    simp [Oram.logCall] at hp

end Evicting

theorem residue_of_interrupted (hw : WellFormed o) (hleaf : leaf < o.numLeaves) (hi : i < 2 ^ 31)
    (h : Interrupted op i leaf newLeaf newData o u) :
    ∃ lost, Taken op i leaf newLeaf newData o u lost ∧ Residue op i newData o u lost := by
  cases h with
  | reading pre post l hl => exact ⟨_, .reading pre post l hl, residue_reading hw hleaf hl⟩
  | evicting pre post l hl =>
    exact ⟨_, .evicting pre post l _ hl rfl, residue_evicting hw hleaf hi hl⟩

def mend (o : Oram) : Oram := { o with storage := { o.storage with fails := fun _ => false } }

/-- Every later read of an index answers as allowed, whatever calls come before it, up to the
next write of the index. -/
def LaterReads (codec : Codec Node) (u : Oram) (j : ℕ) (allowed : Str → Prop) : Prop :=
  ∀ (later : List Call) (d : Call),
    (∀ e ∈ later, e.InRange ∧ (e.op = .write → e.index ≠ j)) →
    d.InRange → d.op = .read → d.index = j →
    ∃ answers w x v, (runAll codec later).run (mend u) = .ok answers w ∧
      (d.run codec).run w = .ok x v ∧ allowed x

structure Copies (j : ℕ) (V : Str → Prop) (o : Oram) : Prop where
  wellFormed : WellFormed o
  reliable : Reliable o
  values : ∀ b ∈ held o, b.index = (j : ℤ) → V b.data

structure Findable (j : ℕ) (o : Oram) : Prop where
  placed : Placed o j
  present : ∃ b ∈ held o, b.index = (j : ℤ)

theorem effect_mem_iff {index : ℤ} {before after : Multiset Block} {stash : List Block}
    {answer : Str} {b : Block} (h : Effect op index newLeaf newData stash before after answer)
    (hb : op = .write → b.index ≠ index) : b ∈ after ↔ b ∈ before := by
  cases h with
  | hit d rest hd hbefore hafter =>
    rw [hbefore, hafter]
    cases op with
    | read => rfl
    | write =>
      have hne : b ≠ d := fun he => hb rfl (he ▸ hd)
      have hne' : b ≠ written .write newData d := fun he => hb rfl (by rw [he, written_index, hd])
      simp [hne, hne']
  | miss _ hafter =>
    cases op with
    | read => rw [hafter]
    | write =>
      have hne : b ≠ ⟨newLeaf, index, newData⟩ := fun he => hb rfl (he ▸ rfl)
      rw [hafter]
      simp [hne]

section Later

variable {j : ℕ} {V : Str → Prop} {d : Call} {codec : Codec Node}

theorem mem_held_next (hw : WellFormed o) (hd : d.InRange) (hj : d.op = .write → d.index ≠ j)
    {b : Block} (hb : b.index = (j : ℤ)) : b ∈ held (d.next codec o) ↔ b ∈ held o := by
  apply effect_mem_iff (next_effect hw hd codec)
  intro hop
  rw [hb]
  exact_mod_cast (hj hop).symm

theorem Copies.next (codec : Codec Node) (h : Copies j V o) (hd : d.InRange)
    (hj : d.op = .write → d.index ≠ j) :
    Copies j V (d.next codec o) := by
  refine ⟨next_wellFormed h.wellFormed hd codec, next_reliable h.reliable codec, ?_⟩
  intro b hb hbj
  exact h.values b ((mem_held_next h.wellFormed hd hj hbj).mp hb) hbj

theorem Findable.next (h : Findable j o) (hw : WellFormed o) (hlt : j < 2 ^ 31) (hd : d.InRange)
    (hj : d.op = .write → d.index ≠ j) : Findable j (d.next codec o) := by
  obtain ⟨b, hb, hbj⟩ := h.present
  exact ⟨next_placed hw hd codec hlt h.placed, b, (mem_held_next hw hd hj hbj).mpr hb, hbj⟩

theorem Copies.runAll {later : List Call} (h : Copies j V o)
    (hl : ∀ e ∈ later, e.InRange ∧ (e.op = .write → e.index ≠ j)) :
    ∃ answers w, (OramMemory.runAll codec later).run o = .ok answers w ∧ Copies j V w ∧
      (j < 2 ^ 31 → Findable j o → Findable j w) := by
  induction later generalizing o with
  | nil => exact ⟨[], o, rfl, h, fun _ hf => hf⟩
  | cons e later ih =>
    obtain ⟨he, hej⟩ := hl e List.mem_cons_self
    obtain ⟨answers, w, hrun, hw, hfind⟩ :=
      ih (h.next codec he hej) fun d hd => hl d (List.mem_cons_of_mem _ hd)
    refine ⟨e.answer o :: answers, w, ?_, hw, ?_⟩
    · refine (run_bind_ok (Call.run_ok h.reliable h.wellFormed codec e)).trans ?_
      exact (run_bind_ok hrun).trans (run_pure _ _)
    · intro hlt hf
      exact hfind hlt (hf.next h.wellFormed hlt he hej)

theorem Copies.read (h : Copies j V o) (hd : d.InRange) (hop : d.op = .read) (hj : d.index = j) :
    ∃ x v, (d.run codec).run o = .ok x v ∧ (V x ∨ x = []) ∧ (Findable j o → V x) := by
  have hw := Call.prepare_wellFormed (c := d) h.wellFormed
  have hleaf : o.positionMap d.index < (d.prepare o).numLeaves := by
    rw [Call.prepare_numLeaves]
    exact h.wellFormed.positions_lt _
  have hidx : toInt d.index = (j : ℤ) := by rw [toInt_of_lt (Call.index_lt hd), hj]
  refine ⟨d.answer o, d.next codec o, Call.run_ok h.reliable h.wellFormed codec d, ?_⟩
  by_cases hfound : ∃ b ∈ (opened (o.positionMap d.index) (d.prepare o)).stash,
      b.index = toInt d.index
  · obtain ⟨b, pre, post, hst, hb, _, hans⟩ := stash_hit d.op (d.newLeaf o) (d.data codec) hfound
    have hmem : b ∈ held o := by
      rw [← Call.held_prepare (c := d), held_eq hw hleaf, hst]
      simp
    have hv : V (d.answer o) := by
      rw [Call.answer, hans, hop]
      exact h.values b hmem (hb.trans hidx)
    exact ⟨Or.inl hv, fun _ => hv⟩
  · have hans := (stash_miss d.op (d.newLeaf o) (d.data codec) hfound).2
    refine ⟨Or.inr hans, ?_⟩
    intro hf
    obtain ⟨b, hb, hbj⟩ := hf.present
    refine absurd ⟨b, ?_, hbj.trans hidx.symm⟩ hfound
    exact mem_stash_of_held h.wellFormed hd (hj ▸ hf.placed) hb (by rw [hbj, hj])

theorem Copies.laterReads (h : Copies j V (mend u)) :
    LaterReads codec u j fun x => V x ∨ x = [] := by
  intro later d hl hd hop hj
  obtain ⟨answers, w, hrun, hw, _⟩ := h.runAll hl
  obtain ⟨x, v, hread, hx, _⟩ := hw.read hd hop hj
  exact ⟨answers, w, x, v, hrun, hread, hx⟩

theorem Copies.laterReads_findable (h : Copies j V (mend u)) (hj : j < 2 ^ 31)
    (hf : Findable j (mend u)) : LaterReads codec u j V := by
  intro later d hl hd hop hdj
  obtain ⟨answers, w, hrun, hw, hfind⟩ := h.runAll hl
  obtain ⟨x, v, hread, _, hx⟩ := hw.read hd hop hdj
  exact ⟨answers, w, x, v, hrun, hread, hx (hfind hj hf)⟩

theorem LaterReads.imp {W : Str → Prop} (h : LaterReads codec u j V) (hvw : ∀ x, V x → W x) :
    LaterReads codec u j W := by
  intro later d hl hd hop hj
  obtain ⟨answers, w, x, v, hrun, hread, hx⟩ := h later d hl hd hop hj
  exact ⟨answers, w, x, v, hrun, hread, hvw x hx⟩

end Later

theorem interrupted_of_error {c : Call} {codec : Codec Node} {e : StorageError}
    (hw : WellFormed o) (h : (c.run codec).run o = .error e u) :
    Interrupted c.op c.index (o.positionMap c.index) (c.newLeaf o) (c.data codec) (c.prepare o) u :=
  accessHandler_error (Call.prepare_wellFormed hw).max_eq (Call.run_eq codec c o ▸ h)

section Failed

variable {c : Call} {codec : Codec Node} {e : StorageError} {m : ℤ → Option Str}

theorem residue_of_error (hw : WellFormed o) (hc : c.InRange)
    (h : (c.run codec).run o = .error e u) :
    ∃ lost, Taken c.op c.index (o.positionMap c.index) (c.newLeaf o) (c.data codec) (c.prepare o) u
        lost ∧ Residue c.op c.index (c.data codec) (c.prepare o) u lost := by
  apply residue_of_interrupted (Call.prepare_wellFormed hw) ?_ (Call.index_lt hc)
    (interrupted_of_error hw h)
  rw [Call.prepare_numLeaves]
  exact hw.positions_lt _

theorem mended_copies {j : ℕ} {V : Str → Prop} (hw : WellFormed u)
    (hv : ∀ b ∈ held u, b.index = (j : ℤ) → V b.data) : Copies j V (mend u) := by
  obtain ⟨h₁, h₂, h₃, h₄, h₅, h₆, h₇, h₈⟩ := hw
  exact ⟨⟨h₁, h₂, h₃, h₄, h₅, h₆, h₇, h₈⟩, fun _ => rfl, hv⟩

theorem value_of_mem {b : Block} {j : ℕ} (h : Holds o m) (hb : b ∈ held o)
    (hj : b.index = (j : ℤ)) : m j = some b.data := hj ▸ h.blocks.value b hb

section Residue

variable {lost : List Block} {j : ℕ} (h : Holds o m)
  (hr : Residue c.op c.index (c.data codec) (c.prepare o) u lost)
include h hr

theorem other_value (hne : j ≠ c.index) {b : Block} (hb : b ∈ held u) (hj : b.index = (j : ℤ)) :
    m j = some b.data := by
  have hbne : b.index ≠ (c.index : ℤ) := by
    rw [hj]
    exact_mod_cast hne
  have hmem := (hr.others b hbne).mp (Or.inr hb)
  rw [Call.held_prepare] at hmem
  exact value_of_mem h hmem hj

theorem accessed_value {b : Block} (hb : b ∈ held u) (hi : b.index = (c.index : ℤ)) :
    m c.index = some b.data ∨ (c.op = .write ∧ b.data = c.data codec) := by
  rcases hr.accessed b hb with hmem | hnew
  · rw [Call.held_prepare] at hmem
    exact Or.inl (value_of_mem h hmem hi)
  · exact Or.inr hnew

theorem other_reads (hj : j < 2 ^ 31) (hne : j ≠ c.index) :
    LaterReads codec u j fun x =>
      x = (m j).getD [] ∨ (x = [] ∧ ∃ b ∈ lost, b.index = (j : ℤ)) := by
  have hcopies : Copies j (fun x => x = (m j).getD []) (mend u) := by
    apply mended_copies hr.wellFormed
    intro b hb hbj
    rw [other_value h hr hne hb hbj]
    rfl
  by_cases hlost : ∃ b ∈ lost, b.index = (j : ℤ)
  · apply hcopies.laterReads.imp
    rintro x (hx | hx)
    · exact Or.inl hx
    · exact Or.inr ⟨hx, hlost⟩
  cases hm : m j with
  | none =>
    apply hcopies.laterReads.imp
    rintro x (hx | hx)
    · exact Or.inl (hm ▸ hx)
    · exact Or.inl hx
  | some v =>
    obtain ⟨b, hb, hbj⟩ := h.blocks.present j v hm
    have hbne : b.index ≠ (c.index : ℤ) := by
      rw [hbj]
      exact_mod_cast hne
    have hleft : b ∈ held u := by
      rcases (hr.others b hbne).mpr (by rwa [Call.held_prepare]) with hin | hin
      · exact absurd ⟨b, hin, hbj⟩ hlost
      · exact hin
    have hplaced : Placed u j :=
      hr.placed j (placed_prepare (h.placed j hj) hj (Call.prepare_positionMap_of_ne hne))
    apply (hcopies.laterReads_findable hj ⟨hplaced, b, hleft, hbj⟩).imp
    intro x hx
    exact Or.inl (hm ▸ hx)

theorem accessed_reads : LaterReads codec u c.index fun x =>
    x = (m c.index).getD [] ∨ x = [] ∨ (c.op = .write ∧ x = c.data codec) := by
  have hcopies : Copies c.index (fun x => x = (m c.index).getD [] ∨
      (c.op = .write ∧ x = c.data codec)) (mend u) := by
    apply mended_copies hr.wellFormed
    intro b hb hi
    rcases accessed_value h hr hb hi with hold | hnew
    · rw [hold]
      exact Or.inl rfl
    · exact Or.inr hnew
  apply hcopies.laterReads.imp
  rintro x ((hx | hx) | hx)
  · exact Or.inl hx
  · exact Or.inr (Or.inr hx)
  · exact Or.inr (Or.inl hx)

/-- A direct access that a read of the storage interrupts changes no answer. -/
theorem direct_read_reads {op : Operation} {node : Node} (hc : c = .direct op node)
    (hrange : c.InRange) (hthrew : ReadThrew u) :
    LaterReads codec u c.index fun x => x = (m c.index).getD [] := by
  obtain ⟨_, _, _, hheld⟩ := hr.read_threw hthrew
  have hcopies : Copies c.index (fun x => x = (m c.index).getD []) (mend u) := by
    apply mended_copies hr.wellFormed
    intro b hb hi
    have hmem := (hheld b).mp hb
    rw [Call.held_prepare] at hmem
    rw [value_of_mem h hmem hi]
    rfl
  cases hm : m c.index with
  | none =>
    apply hcopies.laterReads.imp
    rintro x (hx | hx)
    · exact hm ▸ hx
    · exact hx
  | some v =>
    obtain ⟨b, hb, hbi⟩ := h.blocks.present c.index v hm
    have hmap : (c.prepare o).positionMap = o.positionMap := by
      subst hc
      simp only [Call.prepare]
      split <;> rfl
    have hi := Call.index_lt hrange
    have hplaced : Placed u c.index :=
      hr.placed _ (placed_prepare (h.placed _ hi) hi (congrFun hmap _))
    have hleft : b ∈ held u := (hheld b).mpr (by rwa [Call.held_prepare])
    apply (hcopies.laterReads_findable hi ⟨hplaced, b, hleft, hbi⟩).imp
    intro x hx
    exact hm ▸ hx

end Residue

end Failed

def answer? {α : Type} : EStateM.Result StorageError Oram α → Option α
  | .ok a _ => some a
  | .error _ _ => none

theorem exists_of_answer {α : Type} {x : OramM α} {s : Oram} {a : α}
    (h : answer? (x.run s) = some a) : ∃ t, x.run s = .ok a t := by
  cases hx : x.run s with
  | ok b t =>
    rw [hx] at h
    cases h
    exact ⟨t, rfl⟩
  | error e t =>
    rw [hx] at h
    cases h

def failingAt (k : ℕ) : Storage := { Storage.new with fails := fun n => n = k }

def after (k : ℕ) (rng : ℕ → ℤ) (calls : List Call) : Oram :=
  CallTrace.final ((construct >>= fun _ => runAll ObjectArchive.nodeCodec calls).run
    (blank 1 2 (failingAt k) ⟨0, rng, 0⟩))

@[irreducible] def interrupted (k : ℕ) (rng : ℕ → ℤ) (calls : List Call) (c : Call) : Oram :=
  CallTrace.final ((c.run ObjectArchive.nodeCodec).run (after k rng calls))

def Interrupts (k : ℕ) (rng : ℕ → ℤ) (calls : List Call) (c : Call) (u : Oram) : Prop :=
  ∃ o₀ answers o e, construct.run (blank 1 2 (failingAt k) ⟨0, rng, 0⟩) = .ok ⟨⟩ o₀ ∧
    (runAll ObjectArchive.nodeCodec calls).run o₀ = .ok answers o ∧
    (c.run ObjectArchive.nodeCodec).run o = .error e u

theorem interrupts_of_answers {k : ℕ} {rng : ℕ → ℤ} {calls : List Call} {c : Call}
    (answers : List Str)
    (hcalls : answer? ((construct >>= fun _ => runAll ObjectArchive.nodeCodec calls).run
      (blank 1 2 (failingAt k) ⟨0, rng, 0⟩)) = some answers)
    (hc : answer? ((c.run ObjectArchive.nodeCodec).run (after k rng calls)) = none) :
    Interrupts k rng calls c (interrupted k rng calls c) := by
  obtain ⟨t, ht⟩ := exists_of_answer hcalls
  obtain ⟨_, o₀, hbuild, hrun⟩ := bind_ok ht
  have hafter : after k rng calls = t := by rw [after, ht, CallTrace.final]
  rw [interrupted]
  cases hr : (c.run ObjectArchive.nodeCodec).run (after k rng calls) with
  | ok a w =>
    rw [hr] at hc
    cases hc
  | error e w =>
    rw [hafter] at hr
    exact ⟨o₀, answers, t, e, hbuild, hrun, hr⟩

theorem not_laterReads {codec : Codec Node} {j : ℕ} {allowed : Str → Prop} {d : Call} {x : Str}
    (hd : d.InRange) (hop : d.op = .read) (hj : d.index = j)
    (hx : answer? ((d.run codec).run (mend u)) = some x) (hnot : ¬ allowed x) :
    ¬ LaterReads codec u j allowed := by
  intro h
  obtain ⟨answers, w, y, v, hrun, hread, hy⟩ := h [] d (by simp) hd hop hj
  cases hrun
  rw [hread] at hx
  cases hx
  exact hnot hy

end OramFailure
