import SseSeal.ClientCache
import SseSeal.FaultyRuns
import SseSeal.OramFailure

/-! An oblivious memory on a storage that throws at some calls. Until it does, the memory works
as it would without faults; reading leaves what it holds as it is. -/
namespace StorageFaults

open Bytes Objects OramReadPathEviction StateExcept PathTree OramEviction OramAccess OramBlocks
open OramCalls OramMemory OramFailure OramAccessController ClientCache FaultyRuns

/-- The storage throws at the calls of `fails`. -/
def faultyOram (fails : ℕ → Bool) (o : Oram) : Oram :=
  { o with storage := { o.storage with fails := fails } }

def faultyController (fails : ℕ → Bool) (c : Controller) : Controller :=
  { c with oram := faultyOram fails c.oram }

def mendController (c : Controller) : Controller := { c with oram := mend c.oram }

variable {f : ℕ → Bool} {o u : Oram} {c c' : Controller} {m m' : ℤ → Option Str}

abbrev OramTracks {α : Type} (f : ℕ → Bool) (x : OramM α) : Prop :=
  Tracks (faultyOram f) mend (fun _ _ => True) (fun _ _ => True) x

theorem oram_closed : Closed (faultyOram f) (fun _ _ => True) fun _ _ => True :=
  ⟨fun _ => trivial, fun _ _ _ _ _ => trivial, fun _ => trivial, fun _ _ _ _ _ => trivial⟩

theorem readBucket_tracks (position : ℕ) : OramTracks f (readBucket position) := by
  intro o
  by_cases hcap : o.storage.capacity ≤ position
  · have hthrows : (readBucket position).run (faultyOram f o) =
        .error (.outOfRange position o.storage.capacity)
          ((faultyOram f o).logCall (.read position)) := if_pos hcap
    exact ends_error hthrows trivial
  have hrun : ∀ f, (readBucket position).run (faultyOram f o) =
      if (faultyOram f o).failsNow then .error .rpc ((faultyOram f o).logCall (.read position))
      else .ok (o.storage.buckets position) ((faultyOram f o).logCall (.read position)) :=
    fun f => if_neg hcap
  by_cases hfail : (faultyOram f o).failsNow
  · exact ends_error ((hrun f).trans (if_pos hfail)) trivial
  · apply ends_ok ((hrun f).trans (if_neg hfail))
    exact ⟨o.logCall (.read position), rfl, (hrun fun _ => false).trans (if_neg Bool.false_ne_true),
      trivial⟩

theorem writeBucket_tracks (position : ℕ) (bucket : Bucket) :
    OramTracks f (writeBucket position bucket) := by
  intro o
  by_cases hcap : o.storage.capacity ≤ position
  · have hthrows : (writeBucket position bucket).run (faultyOram f o) =
        .error (.outOfRange position o.storage.capacity)
          ((faultyOram f o).logCall (.write position)) := if_pos hcap
    exact ends_error hthrows trivial
  have hrun : ∀ f, (writeBucket position bucket).run (faultyOram f o) =
      if (faultyOram f o).failsNow then .error .rpc ((faultyOram f o).logCall (.write position))
      else .ok ⟨⟩ (((faultyOram f o).logCall (.write position)).storeBucket position bucket) :=
    fun f => if_neg hcap
  by_cases hfail : (faultyOram f o).failsNow
  · exact ends_error ((hrun f).trans (if_pos hfail)) trivial
  · apply ends_ok ((hrun f).trans (if_neg hfail))
    exact ⟨(o.logCall (.write position)).storeBucket position bucket, rfl,
      (hrun fun _ => false).trans (if_neg Bool.false_ne_true), trivial⟩

theorem getRandomLeaf_tracks : OramTracks f getRandomLeaf := by
  intro o
  exact ends_ok rfl ⟨{ o with randGen := o.randGen.advance }, rfl, rfl, trivial⟩

theorem readLevel_tracks (oldLeaf i : ℕ) : OramTracks f (readLevel oldLeaf i) := by
  apply tracks_get
  · exact fun _ => rfl
  intro o
  apply (readBucket_tracks _).bind oram_closed
  intro blocks
  exact tracks_modify (fun _ => rfl) (fun _ => rfl) fun _ => trivial

theorem accessStash_tracks (op : Operation) (i : ℕ) (newLeaf : ℤ) (newData : Str) :
    OramTracks f (accessStash op i newLeaf newData) := by
  intro o
  apply ends_ok (accessStash_run op i newLeaf newData (faultyOram f o))
  exact ⟨{ o with stash := stashUpdate op (toInt i) newLeaf newData o.stash }, rfl,
    accessStash_run op i newLeaf newData (mend o), trivial⟩

theorem evictLevel_tracks (oldLeaf l : ℕ) : OramTracks f (evictLevel oldLeaf l) := by
  intro o
  -- the stash loses its blocks first, and then only the bucket is written
  let evicting := collect o.bucketSize o.maxSize
    (fun b => o.P oldLeaf l = o.P (o.positionMap (toUnsigned b.index)) l) o.stash ([], [], 0)
  exact writeBucket_tracks (o.P oldLeaf l)
    (padBucket o.maxSize evicting.1 (o.bucketSize - evicting.2.2))
    { o with stash := eraseEvicted evicting.2.1 o.stash }

theorem accessHandler_tracks (op : Operation) (i oldLeaf : ℕ) (newLeaf : ℤ) (newData : Str) :
    OramTracks f (accessHandler op i oldLeaf newLeaf newData) := by
  apply tracks_get
  · exact fun _ => rfl
  intro o
  apply (tracks_forM oram_closed (readLevel_tracks oldLeaf) _).bind oram_closed
  intro _
  apply (accessStash_tracks op i newLeaf newData).bind oram_closed
  intro data
  apply (tracks_forM oram_closed (evictLevel_tracks oldLeaf) _).bind oram_closed
  exact fun _ => tracks_pure fun _ => trivial

theorem access_tracks (op : Operation) (i : ℕ) (newData : Str) :
    OramTracks f (access op i newData) := by
  apply tracks_get
  · exact fun _ => rfl
  intro o
  apply getRandomLeaf_tracks.bind oram_closed
  intro newLeaf
  apply Tracks.bind oram_closed
  · exact tracks_modify (fun _ => rfl) (fun _ => rfl) fun _ => trivial
  · exact fun _ => accessHandler_tracks _ _ _ _ _

theorem accessDirect_tracks (codec : Codec Node) (op : Operation) (newData : Str) :
    OramTracks f (accessDirect codec op newData) := by
  rw [accessDirect]
  split
  · exact tracks_throw fun _ => trivial
  · rename_i node _
    apply tracks_get
    · exact fun _ => rfl
    intro o
    have hleaf : OramTracks f (directLeaf op node) := by
      rw [directLeaf]
      split
      · exact getRandomLeaf_tracks.bind oram_closed fun _ => tracks_pure fun _ => trivial
      · exact tracks_pure fun _ => trivial
    exact hleaf.bind oram_closed fun _ => accessHandler_tracks _ _ _ _ _

theorem holds_faulty : Holds (faultyOram f o) m ↔ Holds o m := by
  constructor
  · rintro ⟨⟨h₁, h₂, h₃, h₄, h₅, h₆, h₇, h₈⟩, hblocks, hplaced⟩
    exact ⟨⟨h₁, h₂, h₃, h₄, h₅, h₆, h₇, h₈⟩, hblocks, hplaced⟩
  · rintro ⟨⟨h₁, h₂, h₃, h₄, h₅, h₆, h₇, h₈⟩, hblocks, hplaced⟩
    exact ⟨⟨h₁, h₂, h₃, h₄, h₅, h₆, h₇, h₈⟩, hblocks, hplaced⟩

theorem holds_mend : Holds (mend o) m ↔ Holds o m := holds_faulty (f := fun _ => false)

theorem holds_unique (h : Holds o m) (h' : Holds o m') : m = m' := by
  have hsub : ∀ {m m' : ℤ → Option Str}, Holds o m → Holds o m' → ∀ i d, m i = some d →
      m' i = some d := by
    intro m m' h h' i d hi
    obtain ⟨b, hb, rfl⟩ := h.blocks.present i d hi
    rw [h.blocks.value b hb] at hi
    rw [h'.blocks.value b hb, hi]
  funext i
  apply Option.ext
  intro d
  exact ⟨hsub h h' i d, hsub h' h i d⟩

theorem holds_advance (h : Holds o m) : Holds { o with randGen := o.randGen.advance } m := by
  have hserves : Serves ⟨mend o, 0⟩ m := ⟨fun _ => rfl, holds_mend.mpr h⟩
  exact (holds_mend (o := { o with randGen := o.randGen.advance })).mp hserves.advance.holds

/-- A read leaves every block where it may lie, whatever index it looks for. -/
theorem holds_read (h : Holds o m) {leaf i : ℕ} (hleaf : leaf < o.numLeaves) {newLeaf : ℤ}
    {newData : Str} : Holds (handled .read i leaf newLeaf newData o) m := by
  have hi : 0 < 2 ^ 31 := by decide
  have hsame : handled .read i leaf newLeaf newData o = handled .read 0 leaf newLeaf newData o :=
    rfl
  rw [hsame]
  refine ⟨?_, ?_, ?_⟩
  · apply (handled_frame _ _ _ _ _ _).wellFormed h.wellFormed
    intro b hb
    exact accessed_stash_real h.wellFormed hi b (evictPath_stash_subset hb)
  · rw [held_handled h.wellFormed hleaf hi, stashUpdate, ← held_eq h.wellFormed hleaf]
    exact h.blocks
  · intro j hj
    apply handled_placed h.wellFormed hleaf hi
    intro p hp _ b hb hbj
    exact h.placed j hj p hp b hb hbj

theorem accessDirect_read_holds {codec : Codec Node} {data answer : Str} (h : Holds o m)
    (hrun : (accessDirect codec .read data).run o = .ok answer u) : Holds u m := by
  rw [accessDirect] at hrun
  split at hrun
  · cases hrun
  · rename_i node _
    obtain ⟨_, _, hget, hrun⟩ := bind_ok hrun
    cases hget
    obtain ⟨newLeaf, t, hleaf, hrun⟩ := bind_ok hrun
    cases hleaf
    have hdrawn := holds_advance h
    obtain ⟨_, rfl⟩ := accessHandler_ok hdrawn.wellFormed.max_eq hrun
    exact holds_read hdrawn (hdrawn.wellFormed.positions_lt _)

theorem access_read_holds {i : ℕ} (hi : i < 2 ^ 31) {data answer : Str} (h : Holds o m)
    (hrun : (access .read i data).run o = .ok answer u) : Holds u m := by
  have hcall : ((Call.access .read i data).run ObjectArchive.nodeCodec).run o = .ok answer u := hrun
  obtain ⟨_, rfl⟩ := Call.run_ok_next h.wellFormed hcall
  exact (holds_next h (c := .access .read i data) hi ObjectArchive.nodeCodec).1

def Remembers (c c' : Controller) : Prop := ∀ m, Holds c.oram m → Holds c'.oram m

theorem Remembers.refl (c : Controller) : Remembers c c := fun _ h => h

abbrev ControllerTracks {α : Type} (f : ℕ → Bool) (R : Controller → Controller → Prop)
    (x : ControllerM α) : Prop :=
  Tracks (faultyController f) mendController R (fun _ _ => True) x

theorem remembers_closed : Closed (faultyController f) Remembers fun _ _ => True :=
  ⟨Remembers.refl, fun _ _ _ h h' m hm => h' m (h m hm), fun _ => trivial,
    fun _ _ _ _ _ => trivial⟩

theorem onOram_tracks {α : Type} {x : OramM α} (hx : OramTracks f x) :
    ControllerTracks f (fun _ _ => True) (onOram x) :=
  hx.focus (fun _ => rfl) (fun _ => rfl) (fun _ _ => rfl) (fun _ _ => rfl) (fun _ _ _ => trivial)
    fun _ _ _ => trivial

theorem issue_tracks (op : OramAccessOp) {access : Operation → OramM Str}
    (h : ∀ operation, OramTracks f (access operation)) :
    ControllerTracks f (fun _ _ => True) (issue op access) := by
  rw [issue]
  split
  · exact tracks_throw fun _ => trivial
  · have hcount : ControllerTracks f (fun _ _ => True)
        (modify fun c => { c with accesses := c.accesses + 1 } : ControllerM PUnit) :=
      tracks_modify (fun _ => rfl) (fun _ => rfl) fun _ => trivial
    exact hcount.andThen (fun _ => onOram_tracks (h _)) (fun _ _ _ _ _ => trivial)
      (fun _ _ _ => trivial) fun _ _ _ _ _ => trivial

theorem issue_ok {op : OramAccessOp} {access : Operation → OramM Str} {answer : Str}
    (h : (issue op access).run c = .ok answer c') : ∃ operation,
      deductOperation op = some operation ∧
        (access operation).run c.oram = .ok answer c'.oram := by
  rw [issue] at h
  split at h
  · cases h
  · rename_i operation hop
    refine ⟨operation, hop, ?_⟩
    obtain ⟨_, _, hcount, h⟩ := bind_ok h
    cases hcount
    simp only [onOram, focus, EStateM.run] at h
    split at h
    · rename_i hrun
      cases h
      exact hrun
    · cases h

section Accesses

variable (codec : Codec Node) (data : Str)

theorem directRead_tracks :
    ControllerTracks f Remembers (obliviousAccessDirect codec .read data) := by
  have htracks := issue_tracks .read fun operation =>
    accessDirect_tracks (f := f) codec operation data
  apply htracks.strengthen
  intro c c' answer _ hrun m hm
  obtain ⟨operation, hop, hread⟩ := issue_ok hrun
  cases hop
  exact holds_mend.mp (accessDirect_read_holds (holds_mend.mpr hm) hread)

theorem directWrite_tracks :
    ControllerTracks f (fun _ _ => True) (obliviousAccessDirect codec .write data) :=
  issue_tracks .write fun operation => accessDirect_tracks codec operation data

theorem read_tracks {i : ℤ} (hi : 0 ≤ i ∧ i < 2 ^ 31) :
    ControllerTracks f Remembers (obliviousAccess .read i data) := by
  have htracks := issue_tracks .read fun operation =>
    access_tracks (f := f) operation (toUnsigned i) data
  apply htracks.strengthen
  intro c c' answer _ hrun m hm
  obtain ⟨operation, hop, hread⟩ := issue_ok hrun
  cases hop
  exact holds_mend.mp (access_read_holds (access_inRange hi .read data) (holds_mend.mpr hm) hread)

theorem write_tracks {i : ℤ} :
    ControllerTracks f (fun _ _ => True) (obliviousAccess .write i data) :=
  issue_tracks .write fun operation => access_tracks operation (toUnsigned i) data

end Accesses

theorem randomNewPos_tracks : ControllerTracks f Remembers randomNewPos := by
  intro c
  refine ends_ok rfl ⟨{ c with oram := { c.oram with randGen := c.oram.randGen.advance } }, rfl,
    rfl, ?_⟩
  exact fun m hm => holds_advance hm

theorem drawTags_tracks (items : List (ℤ × Node)) (tags : ℤ → ℤ) :
    ControllerTracks f Remembers (drawTags items tags) := by
  induction items generalizing tags with
  | nil => exact tracks_pure Remembers.refl
  | cons e items ih =>
    apply randomNewPos_tracks.bind remembers_closed
    intro tag
    apply (ih _).bind remembers_closed
    exact fun _ => tracks_pure Remembers.refl

theorem updatePos_tracks (cache : Cache) (rootId : ℤ) :
    ControllerTracks f Remembers (updatePos cache rootId) :=
  (drawTags_tracks _ _).bind remembers_closed fun _ => tracks_pure Remembers.refl

end StorageFaults
