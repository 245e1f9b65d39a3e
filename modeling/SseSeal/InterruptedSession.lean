import SseSeal.PositionTags
import SseSeal.StorageFaults

/-! Sessions that an access of the oblivious memory ends, because a storage call throws. Up to
that access a session does what it would do without faults. -/
namespace InterruptedSession

open Bytes Objects StateExcept FaultyRuns StringCipher AvlTree OramReadPathEviction OramMemory
open OramFailure OramAccessController StorageFaults ClientCache OdictClient ClientSession
open ClientTree Dictionary PositionTags

/-- The storage of the client throws at the calls of `fails`. -/
def faultyClient (fails : ℕ → Bool) (c : Client) : Client :=
  { c with controller := faultyController fails c.controller }

def mendClient (c : Client) : Client := { c with controller := mendController c.controller }

structure SameSetup (c c' : Client) : Prop where
  secretKey : c'.secretKey = c.secretKey
  maxSize : c'.cache.maxSize = c.cache.maxSize

structure SameRoot (c c' : Client) : Prop where
  setup : SameSetup c c'
  rootId : c'.rootId = c.rootId

structure Reads (c c' : Client) : Prop where
  root : SameRoot c c'
  remembers : Remembers c.controller c'.controller

variable {f : ℕ → Bool} {c c' : Client}

theorem SameRoot.refl (c : Client) : SameRoot c c := ⟨⟨rfl, rfl⟩, rfl⟩

theorem SameRoot.trans {c'' : Client} (h : SameRoot c c') (h' : SameRoot c' c'') :
    SameRoot c c'' :=
  ⟨⟨h'.setup.secretKey.trans h.setup.secretKey, h'.setup.maxSize.trans h.setup.maxSize⟩,
    h'.rootId.trans h.rootId⟩

theorem Reads.refl (c : Client) : Reads c c := ⟨SameRoot.refl c, Remembers.refl _⟩

theorem Reads.trans {c'' : Client} (h : Reads c c') (h' : Reads c' c'') : Reads c c'' :=
  ⟨h.root.trans h'.root, fun m hm => h'.remembers m (h.remembers m hm)⟩

abbrev ClientTracks {α : Type} (f : ℕ → Bool) (R Q : Client → Client → Prop) (x : ClientM α) :
    Prop := Tracks (faultyClient f) mendClient R Q x

theorem root_closed : Closed (faultyClient f) SameRoot SameRoot :=
  ⟨SameRoot.refl, fun _ _ _ => SameRoot.trans, fun _ => ⟨⟨rfl, rfl⟩, rfl⟩,
    fun _ _ _ => SameRoot.trans⟩

theorem reads_closed : Closed (faultyClient f) Reads SameRoot :=
  ⟨Reads.refl, fun _ _ _ => Reads.trans, root_closed.stays, fun _ _ _ h h' => h.root.trans h'⟩

theorem onController_tracks {α : Type} {x : ControllerM α} {R : Controller → Controller → Prop}
    (hx : ControllerTracks f R x) : ClientTracks f
      (fun c c' => SameRoot c c' ∧ R c.controller c'.controller) SameRoot (onController x) :=
  hx.focus (fun _ => rfl) (fun _ => rfl) (fun _ _ => rfl) (fun _ _ => rfl)
    (fun _ _ h => ⟨⟨⟨rfl, rfl⟩, rfl⟩, h⟩) fun _ _ _ => ⟨⟨rfl, rfl⟩, rfl⟩

abbrev ReadTracks {α : Type} (f : ℕ → Bool) (x : ClientM α) : Prop :=
  ClientTracks f Reads SameRoot x

theorem onController_reads {α : Type} {x : ControllerM α} (hx : ControllerTracks f Remembers x) :
    ReadTracks f (onController x) :=
  (onController_tracks hx).imp (fun _ _ h => ⟨h.1, h.2⟩) fun _ _ h => h

theorem orThrow_reads {α : Type} {e : ClientError} {o : Option α} : ReadTracks f (orThrow e o) :=
  tracks_orThrow reads_closed

theorem findPosById_reads (id : ℤ) : ReadTracks f (OdictClient.findPosById id) := by
  apply tracks_get
  · exact fun _ => rfl
  · exact fun _ => tracks_pure Reads.refl

theorem cacheGet_reads (id : ℤ) : ReadTracks f (cacheGet id) := by
  intro c
  refine ends_ok rfl ⟨{ c with cache := (c.cache.get id).2 }, rfl, rfl, ⟨⟨rfl, ?_⟩, rfl⟩,
    Remembers.refl _⟩
  change (c.cache.get id).2.maxSize = c.cache.maxSize
  rw [Cache.get]
  split <;> rfl

theorem put_maxSize {cache cache' : Cache} {id : ℤ} {item node : Node}
    (h : cache.put id item = some (node, cache')) : cache'.maxSize = cache.maxSize := by
  rw [Cache.put] at h
  split at h
  · rw [Cache.evict] at h
    simp only [Option.bind_eq_bind, Option.bind_eq_some_iff, Option.pure_def, Option.some.injEq,
      Prod.mk.injEq] at h
    obtain ⟨_, _, _, _, _, rfl⟩ := h
    rfl
  · cases h
    rfl

theorem cachePut_reads (id : ℤ) (item : Node) : ReadTracks f (cachePut id item) := by
  intro c
  have hrun : ∀ c : Client, (cachePut id item).run c = match c.cache.put id item with
      | none => .error .undefinedBehaviour c
      | some r => .ok ⟨⟩ { c with cache := r.2 } := by
    intro c
    refine (run_bind_ok (run_get c)).trans ?_
    cases c.cache.put id item <;> rfl
  have hfaulty := hrun (faultyClient f c)
  have hmended := hrun (mendClient c)
  change _ = match c.cache.put id item with | none => _ | some r => _ at hfaulty hmended
  cases hput : c.cache.put id item with
  | none =>
    rw [hput] at hfaulty
    exact ends_error hfaulty (reads_closed.stays c)
  | some r =>
    rw [hput] at hfaulty hmended
    exact ends_ok hfaulty ⟨{ c with cache := r.2 }, rfl, hmended,
      ⟨⟨rfl, put_maxSize hput⟩, rfl⟩, Remembers.refl _⟩

section Steps

variable (codec : Codec Node)

theorem cacheHelper_reads (id : ℤ) : ReadTracks f (cacheHelper codec id) := by
  apply (findPosById_reads id).bind reads_closed
  intro pos
  apply (onController_reads (directRead_tracks codec _)).bind reads_closed
  intro buffer
  apply orThrow_reads.bind reads_closed
  intro ret
  apply tracks_get
  · exact fun _ => rfl
  intro c
  apply orThrow_reads.bind reads_closed
  intro plaintext
  apply orThrow_reads.bind reads_closed
  exact fun key => tracks_pure Reads.refl

theorem odsAccess_reads (op : OdictOperation) : ReadTracks f (odsAccess codec op) := by
  have hfetch : ∀ id, ReadTracks f (do
      let _ ← cacheHelper codec id
      return op.data) := fun id =>
    (cacheHelper_reads codec id).bind reads_closed fun _ => tracks_pure Reads.refl
  have hput : ∀ id item data, ReadTracks f (do
      cachePut id item
      return data : ClientM Str) := fun id item data =>
    (cachePut_reads id item).bind reads_closed fun _ => tracks_pure Reads.refl
  apply orThrow_reads.bind reads_closed
  intro node
  split
  · apply Tracks.bind reads_closed
    · exact tracks_modify (fun _ => rfl) (fun _ => rfl)
        fun _ => ⟨⟨⟨rfl, rfl⟩, rfl⟩, Remembers.refl _⟩
    intro _
    apply (cacheGet_reads _).bind reads_closed
    intro ret
    split
    · exact tracks_pure Reads.refl
    · exact (cacheHelper_reads codec _).bind reads_closed fun _ => hput _ _ _
  · apply Tracks.bind reads_closed
    · exact tracks_modify (fun _ => rfl) (fun _ => rfl)
        fun _ => ⟨⟨⟨rfl, rfl⟩, rfl⟩, Remembers.refl _⟩
    intro _
    apply (cacheGet_reads _).bind reads_closed
    intro ret
    split
    · exact hput _ _ _
    · exact (cacheHelper_reads codec _).bind reads_closed fun _ => hput _ _ _
  · apply (cacheGet_reads _).bind reads_closed
    intro ret
    split
    · exact tracks_pure Reads.refl
    · exact hfetch _
  · exact hput _ _ _

theorem readFromOram_reads (id : ℤ) : ReadTracks f (readFromOram codec id) :=
  (odsAccess_reads codec _).bind reads_closed fun _ => orThrow_reads

theorem writeToOram_reads (node : Node) : ReadTracks f (writeToOram codec node) :=
  (odsAccess_reads codec _).bind reads_closed fun _ => tracks_pure Reads.refl

theorem rotateUp_reads (s : Side) (rootId : ℤ) : ReadTracks f (rotateUp codec s rootId) := by
  apply (readFromOram_reads codec rootId).bind reads_closed
  intro root
  apply (readFromOram_reads codec _).bind reads_closed
  intro child
  apply (writeToOram_reads codec _).bind reads_closed
  intro _
  apply (writeToOram_reads codec _).bind reads_closed
  exact fun _ => tracks_pure Reads.refl

theorem rotateTwice_reads (s : Side) (rootId : ℤ) :
    ReadTracks f (rotateTwice codec s rootId) := by
  apply (readFromOram_reads codec rootId).bind reads_closed
  intro root
  apply (rotateUp_reads codec _ _).bind reads_closed
  intro child
  apply (writeToOram_reads codec _).bind reads_closed
  exact fun _ => rotateUp_reads codec s rootId

theorem balance_reads (rootId : ℤ) : ReadTracks f (OdictClient.balance codec rootId) := by
  apply (readFromOram_reads codec rootId).bind reads_closed
  intro root
  split
  · apply (readFromOram_reads codec _).bind reads_closed
    intro left
    split
    · exact rotateUp_reads codec .left rootId
    · exact rotateTwice_reads codec .left rootId
  split
  · apply (readFromOram_reads codec _).bind reads_closed
    intro right
    split
    · exact rotateUp_reads codec .right rootId
    · exact rotateTwice_reads codec .right rootId
  · exact tracks_pure Reads.refl

theorem insertPriv_reads (node : Node) (fuel : ℕ) (rootId : ℤ) :
    ReadTracks f (insertPriv codec node fuel rootId) := by
  induction fuel generalizing rootId with
  | zero => exact tracks_throw reads_closed.stays
  | succ fuel ih =>
    have hwrite : ∀ root, ReadTracks f (do
        writeToOram codec root
        OdictClient.balance codec rootId) := fun root =>
      (writeToOram_reads codec root).bind reads_closed fun _ => balance_reads codec rootId
    rw [insertPriv]
    split
    · exact (odsAccess_reads codec _).bind reads_closed fun _ => tracks_pure Reads.refl
    · apply (readFromOram_reads codec rootId).bind reads_closed
      intro root
      split
      · exact (ih _).bind reads_closed fun _ => hwrite _
      split
      · exact (ih _).bind reads_closed fun _ => hwrite _
      · exact hwrite _

theorem findPriv_reads (key : Str) (fuel : ℕ) (rootId : ℤ) :
    ReadTracks f (findPriv codec key fuel rootId) := by
  induction fuel generalizing rootId with
  | zero => exact tracks_throw reads_closed.stays
  | succ fuel ih =>
    rw [findPriv]
    split
    · exact tracks_pure Reads.refl
    · apply (readFromOram_reads codec rootId).bind reads_closed
      intro root
      split
      · exact tracks_pure Reads.refl
      split
      · exact ih _
      · exact ih _

end Steps

structure Acts (c c' : Client) : Prop where
  setup : SameSetup c c'
  remembers : Remembers c.controller c'.controller

theorem Acts.refl (c : Client) : Acts c c := ⟨⟨rfl, rfl⟩, Remembers.refl _⟩

theorem Acts.trans {c'' : Client} (h : Acts c c') (h' : Acts c' c'') : Acts c c'' :=
  ⟨⟨h'.setup.secretKey.trans h.setup.secretKey, h'.setup.maxSize.trans h.setup.maxSize⟩,
    fun m hm => h'.remembers m (h.remembers m hm)⟩

theorem acts_closed : Closed (faultyClient f) Acts fun _ _ => True :=
  ⟨Acts.refl, fun _ _ _ => Acts.trans, fun _ => trivial, fun _ _ _ _ _ => trivial⟩

section Session

variable (codec : Codec Node) (fuel : ℕ)

theorem odsStart_reads : ReadTracks f odsStart :=
  tracks_modify (fun _ => rfl) (fun _ => rfl) fun _ => ⟨⟨⟨rfl, rfl⟩, rfl⟩, Remembers.refl _⟩

/-- An action that throws has not moved the root. -/
theorem action_tracks (a : Action) : ClientTracks f Acts SameRoot (a.run codec fuel) := by
  have hmove : ∀ {α : Type} (move : Client → Client) (b : α),
      (∀ c, move (faultyClient f c) = faultyClient f (move c)) →
      (∀ c, move (mendClient c) = mendClient (move c)) → (∀ c, Acts c (move c)) →
      ClientTracks f Acts (fun _ _ => False) (do modify move; return b) := by
    intro α move b hf hm hr
    have hmodify : ClientTracks f Acts (fun _ _ => False) (modify move) := tracks_modify hf hm hr
    exact hmodify.andThen (fun _ => tracks_pure Acts.refl) (fun _ _ _ => Acts.trans)
      (fun _ _ h => h) fun _ _ _ _ h => h
  cases a with
  | insert n =>
    have hinsert : ClientTracks f Acts SameRoot (insertNode codec fuel n) := by
      apply tracks_get
      · exact fun _ => rfl
      intro c
      apply (insertPriv_reads codec n fuel _).andThen (fun res => hmove _ res ?_ ?_ ?_)
      · exact fun _ _ _ h h' => Acts.trans ⟨h.root.setup, h.remembers⟩ h'
      · exact fun _ _ h => h
      · exact fun _ _ _ _ h => h.elim
      · intro c
        by_cases hroot : c.rootId = 0 <;> simp [faultyClient, hroot]
      · intro c
        by_cases hroot : c.rootId = 0 <;> simp [mendClient, hroot]
      · intro c
        split
        · exact ⟨⟨rfl, rfl⟩, Remembers.refl _⟩
        · exact Acts.refl c
    have hroot : ∀ res : Node, ClientTracks f Acts (fun _ _ => False)
        (modify fun c => { c with rootId := res.id }) := fun res =>
      tracks_modify (fun _ => rfl) (fun _ => rfl) fun _ => ⟨⟨rfl, rfl⟩, Remembers.refl _⟩
    exact hinsert.andThen hroot (fun _ _ _ => Acts.trans) (fun _ _ h => h) fun _ _ _ _ h => h.elim
  | find key =>
    apply tracks_get
    · exact fun _ => rfl
    intro c
    have hfind : ReadTracks f (do let _ ← findPriv codec key fuel c.rootId) :=
      (findPriv_reads codec key fuel _).bind reads_closed fun _ => tracks_pure Reads.refl
    exact hfind.imp (fun _ _ h => ⟨h.root.setup, h.remembers⟩) fun _ _ h => h

theorem dummyRead_reads : ReadTracks f dummyRead := by
  have hread := onController_reads (f := f) (read_tracks (ofAscii "ok")
    (show (0 : ℤ) ≤ 0 ∧ (0 : ℤ) < 2 ^ 31 by decide))
  exact hread.bind reads_closed fun _ => tracks_pure Reads.refl

theorem retagCache_tracks : ClientTracks f
    (fun c c' => Remembers c.controller c'.controller) (fun _ _ => True) retagCache := by
  apply tracks_get
  · exact fun _ => rfl
  intro c
  have hset : ∀ r : ℤ × Cache, ClientTracks f
      (fun c c' => Remembers c.controller c'.controller) (fun _ _ => True)
      (modify fun c => { c with rootPos := r.1, cache := r.2 }) := fun r =>
    tracks_modify (fun _ => rfl) (fun _ => rfl) fun _ => Remembers.refl _
  apply (onController_tracks (updatePos_tracks _ _)).andThen hset
  · exact fun _ _ _ h h' m hm => h' m (h.2 m hm)
  · exact fun _ _ _ => trivial
  · exact fun _ _ _ _ _ => trivial

theorem dummyWrite_tracks : ClientTracks f SameRoot SameRoot (dummyWrite codec) := by
  have hwrite := onController_tracks (write_tracks (f := f)
    (codec.serialize (Node.ofTag 0 (-1))) (i := 0))
  have hwrite := hwrite.imp (fun _ _ h => h.1) fun _ _ h => h
  exact hwrite.bind root_closed fun _ => tracks_pure SameRoot.refl

theorem evictNode_tracks : ClientTracks f SameRoot SameRoot (evictNode codec) := by
  apply tracks_get
  · exact fun _ => rfl
  intro c
  split
  · exact tracks_throw root_closed.stays
  · rename_i node _ _
    apply (tracks_orThrow root_closed).bind root_closed
    intro ciphertext
    apply (tracks_orThrow root_closed).bind root_closed
    intro encryptedKey
    have hwrite := onController_tracks (directWrite_tracks (f := f) codec (codec.serialize
      { node with data := ciphertext, key := encryptedKey }))
    apply (hwrite.imp (fun _ _ h => h.1) fun _ _ h => h).bind root_closed
    intro _
    exact tracks_modify (fun _ => rfl) (fun _ => rfl) fun _ => ⟨⟨rfl, rfl⟩, rfl⟩

end Session

end InterruptedSession
