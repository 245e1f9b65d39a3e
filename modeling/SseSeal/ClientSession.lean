import SseSeal.OdictClient

/-! The nodes a session works on. A node is the cached one if there is one, and otherwise the
one that lies encrypted in the oblivious memory; where it is does not matter for what the
operations of a session compute. -/
namespace ClientSession

open Bytes Objects StateExcept AvlTree StringCipher OramAccessController ClientCache OdictClient

/-- A node without its old tag, which nothing in a session depends on. -/
def clean (n : Node) : Node := { n with oldTag := 0 }

def Sealed (codec : Codec Node) (secretKey : Str) (n : Node) (s : Str) : Prop :=
  ∃ data key, encryptSm4Ebc n.data secretKey = some data ∧
    encryptSm4Ebc n.key secretKey = some key ∧
    s = codec.serialize { n with data := data, key := key }

def Stored (codec : Codec Node) (secretKey : Str) : Option Node → Option Str → Prop
  | none, s => s = none
  | some n, s => ∃ m t, clean m = n ∧ s = some t ∧ Sealed codec secretKey m t

/-- A node that the dictionary can hold under an id. -/
structure Valid (id : ℤ) (n : Node) : Prop where
  id_eq : n.id = id
  pos : 0 < id
  lt : id < 2 ^ 31
  key : Storable n.key
  data : Storable n.data

/-- The client holds the nodes `V`, in its cache or in its memory. -/
structure Shows (codec : Codec Node) (c : Client) (V : ℤ → Option Node) : Prop where
  memory : ∃ m, Serves c.controller m ∧
    ∀ i, 0 < i → c.cache.find? i = none → Stored codec c.secretKey (V i) (m i)
  cache : WellFormed c.cache
  cached : ∀ i n, c.cache.find? i = some n → V i = some (clean n)
  keyLength : 16 ≤ c.secretKey.length
  valid : ∀ i n, V i = some n → Valid i n

variable {codec : Codec Node} {c c' : Client} {V V' : ℤ → Option Node} {id : ℤ} {n : Node}

def Cached (c : Client) (i : ℤ) : Prop := c.cache.find? i ≠ none

instance (c : Client) (i : ℤ) : Decidable (Cached c i) :=
  inferInstanceAs (Decidable (_ ≠ none))

theorem Shows.congr (h : Shows codec c V) (hk : c'.controller = c.controller)
    (hc : c'.cache = c.cache) (hs : c'.secretKey = c.secretKey) : Shows codec c' V := by
  obtain ⟨hmem, hcache, hcached, hlen, hvalid⟩ := h
  exact ⟨by rwa [hk, hc, hs], by rwa [hc], by rwa [hc], by rwa [hs], hvalid⟩

theorem Shows.lru (h : Shows codec c V) (lru : List ℤ) :
    Shows codec { c with cache := { c.cache with lruTable := lru } } V :=
  ⟨h.memory, h.cache.lru lru, h.cached, h.keyLength, h.valid⟩

theorem Shows.clear (h : Shows codec c V) (hempty : c.cache.cacheItems = []) :
    Shows codec { c with cache := c.cache.clear } V := by
  have hfind : ∀ i, c.cache.clear.find? i = c.cache.find? i := by
    intro i
    simp [Cache.find?, Cache.clear, hempty]
  obtain ⟨m, hserves, hstored⟩ := h.memory
  refine ⟨⟨m, hserves, ?_⟩, clear_wellFormed h.cache, ?_, h.keyLength, h.valid⟩
  · intro i hi hnone
    exact hstored i hi ((hfind i).symm.trans hnone)
  · intro i n hn
    exact h.cached i n ((hfind i).symm.trans hn)

theorem Shows.place (h : Shows codec c V) (hv : Valid id n) :
    Shows codec { c with cache := c.cache.place id n }
      (Function.update V id (some (clean n))) := by
  obtain ⟨hid, hpos, hlt, hkey, hdata⟩ := hv
  have hfind : ∀ i, (c.cache.place id n).find? i = if i = id then some n else c.cache.find? i :=
    fun i => find?_place h.cache.nodup
  obtain ⟨m, hserves, hstored⟩ := h.memory
  refine ⟨⟨m, hserves, ?_⟩, place_wellFormed h.cache ⟨hpos, hlt⟩ hid, ?_, h.keyLength, ?_⟩
  · intro i hi hnone
    rw [hfind] at hnone
    by_cases heq : i = id
    · simp [heq] at hnone
    · rw [if_neg heq] at hnone
      rw [Function.update_of_ne heq]
      exact hstored i hi hnone
  · intro i k hk
    rw [hfind] at hk
    by_cases heq : i = id
    · subst heq
      rw [if_pos rfl] at hk
      cases hk
      exact Function.update_self ..
    · rw [if_neg heq] at hk
      rw [Function.update_of_ne heq]
      exact h.cached i k hk
  · intro i k hk
    by_cases heq : i = id
    · subst heq
      rw [Function.update_self] at hk
      cases hk
      exact ⟨hid, hpos, hlt, hkey, hdata⟩
    · rw [Function.update_of_ne heq] at hk
      exact h.valid i k hk

theorem cached_place (h : Shows codec c V) (i : ℤ) :
    Cached { c with cache := c.cache.place id n } i ↔ i = id ∨ Cached c i := by
  rw [Cached, find?_place h.cache.nodup]
  by_cases hi : i = id
  · simp [hi]
  · simp [hi, Cached]

/-- What the operations between the start and the end of a session do: they change nodes of
`ids` only, and only after they were cached. -/
structure Evolves (codec : Codec Node) (ids : Set ℤ) (c : Client) (V : ℤ → Option Node)
    (c' : Client) (V' : ℤ → Option Node) : Prop where
  shows' : Shows codec c' V'
  rootId : c'.rootId = c.rootId
  rootPos : c'.rootPos = c.rootPos
  keeps : ∀ i, Cached c i → Cached c' i
  only : ∀ i, i ∉ ids → V' i = V i ∧ (Cached c' i → Cached c i)
  uncached : ∀ i, ¬ Cached c' i → V' i = V i

theorem Evolves.refl (h : Shows codec c V) (ids : Set ℤ) : Evolves codec ids c V c V :=
  ⟨h, rfl, rfl, fun _ hi => hi, fun _ _ => ⟨rfl, fun hi => hi⟩, fun _ _ => rfl⟩

theorem Evolves.trans {ids : Set ℤ} {c'' : Client} {V'' : ℤ → Option Node}
    (h : Evolves codec ids c V c' V') (h' : Evolves codec ids c' V' c'' V'') :
    Evolves codec ids c V c'' V'' where
  shows' := h'.shows'
  rootId := h'.rootId.trans h.rootId
  rootPos := h'.rootPos.trans h.rootPos
  keeps i hi := h'.keeps i (h.keeps i hi)
  only i hi := ⟨(h'.only i hi).1.trans (h.only i hi).1,
    fun hc => (h.only i hi).2 ((h'.only i hi).2 hc)⟩
  uncached i hi := (h'.uncached i hi).trans (h.uncached i fun hc => hi (h'.keeps i hc))

theorem Evolves.mono {ids ids' : Set ℤ} (h : Evolves codec ids c V c' V') (hsub : ids ⊆ ids') :
    Evolves codec ids' c V c' V' :=
  { h with only := fun i hi => h.only i fun hm => hi (hsub hm) }

theorem Evolves.place (h : Shows codec c V) (hv : Valid id n) :
    Evolves codec {id} c V { c with cache := c.cache.place id n }
      (Function.update V id (some (clean n))) := by
  have hcached : ∀ i, Cached { c with cache := c.cache.place id n } i ↔ i = id ∨ Cached c i :=
    cached_place h
  refine ⟨h.place hv, rfl, rfl, ?_, ?_, ?_⟩
  · intro i hi
    exact (hcached i).mpr (Or.inr hi)
  · intro i hi
    refine ⟨Function.update_of_ne hi _ _, ?_⟩
    intro hc
    exact ((hcached i).mp hc).resolve_left hi
  · intro i hi
    exact Function.update_of_ne (fun heq => hi ((hcached i).mpr (Or.inl heq))) _ _

theorem onController_returns {α : Type} {x : ControllerM α} {post : α → Controller → Prop}
    (h : Returns x c.controller post) :
    Returns (onController x) c fun a c' => ∃ k, post a k ∧ c' = c.withController k :=
  h.focus Client.controller Client.withController ClientError.access

theorem findPosById_returns (id : ℤ) :
    Returns (OdictClient.findPosById id) c fun _ c' => c' = c :=
  returns_get.bind fun _ _ ⟨_, ht⟩ => returns_pure ht

theorem cacheGet_hit (h : c.cache.find? id = some n) :
    Returns (cacheGet id) c fun r c' => r = n ∧ c' = { c with cache :=
      { c.cache with lruTable := id :: c.cache.lruTable.erase id } } := by
  refine ⟨n, _, ?_, rfl, rfl⟩
  change cacheGet id c = _
  simp only [cacheGet, get_hit h]

theorem cacheGet_miss (h : c.cache.find? id = none) :
    Returns (cacheGet id) c fun r c' => r = Node.ofTag 0 (-1) ∧ c' = c := by
  refine ⟨Node.ofTag 0 (-1), c, ?_, rfl, rfl⟩
  change cacheGet id c = _
  simp only [cacheGet, get_miss h]

theorem cachePut_returns (h : Shows codec c V) (hv : Valid id n) :
    Returns (cachePut id n) c fun _ c' => c' = { c with cache := c.cache.place id n } := by
  refine returns_get.bind ?_
  intro _ _ hpost
  obtain ⟨rfl, rfl⟩ := hpost
  refine (orThrow_returns (put_eq h.cache ⟨hv.pos, hv.lt⟩ hv.id_eq)).bind ?_
  intro _ _ hpost
  obtain ⟨rfl, rfl⟩ := hpost
  exact returns_set

theorem Sealed.opened {secretKey s : Str} (h : Sealed codec secretKey n s)
    (hlen : 16 ≤ secretKey.length) (hkey : Storable n.key) (hdata : Storable n.data) :
    ∃ r, codec.deserialize s = some r ∧ decryptSm4Ebc r.data secretKey = some n.data ∧
      decryptSm4Ebc r.key secretKey = some n.key ∧ { r with data := n.data, key := n.key } = n := by
  obtain ⟨data, key, hd, hk, rfl⟩ := h
  obtain ⟨data', hd', hdec⟩ := decrypt_encrypt hlen hdata
  obtain ⟨key', hk', hkdec⟩ := decrypt_encrypt hlen hkey
  obtain rfl : data' = data := Option.some.inj (hd'.symm.trans hd)
  obtain rfl : key' = key := Option.some.inj (hk'.symm.trans hk)
  exact ⟨_, codec.roundTrip _, hdec, hkdec, rfl⟩

theorem cacheHelper_returns (h : Shows codec c V) (hV : V id = some n)
    (hmiss : c.cache.find? id = none) :
    Returns (cacheHelper codec id) c fun r c' => clean r = n ∧ Shows codec c' V ∧
      ∃ k, k.accesses = c.controller.accesses + 1 ∧ c' = c.withController k := by
  have hv := h.valid id n hV
  obtain ⟨m, hserves, hstored⟩ := h.memory
  obtain ⟨r, s, rfl, hm, hseal⟩ : Stored codec c.secretKey (some n) (m id) :=
    hV ▸ hstored id hv.pos hmiss
  obtain ⟨b, hb, hdata, hkey, hr⟩ := hseal.opened h.keyLength hv.key hv.data
  refine (findPosById_returns id).bind ?_
  intro pos _ hstep
  subst hstep
  have hrange : 0 ≤ (Node.ofTag id pos).id ∧ (Node.ofTag id pos).id < 2 ^ 31 :=
    ⟨hv.pos.le, hv.lt⟩
  refine (onController_returns (direct_read_returns hserves hrange)).bind ?_
  intro _ _ hpost
  obtain ⟨k, ⟨rfl, hk, hcount⟩, rfl⟩ := hpost
  have hbuffer : codec.deserialize ((m (Node.ofTag id pos).id).getD []) = some b := by
    change codec.deserialize ((m id).getD []) = some b
    rw [hm]
    exact hb
  refine (orThrow_returns hbuffer).bind ?_
  intro _ _ hpost
  obtain ⟨rfl, rfl⟩ := hpost
  refine returns_get.bind ?_
  intro _ _ hpost
  obtain ⟨rfl, rfl⟩ := hpost
  refine (orThrow_returns hdata).bind ?_
  intro _ _ hpost
  obtain ⟨rfl, rfl⟩ := hpost
  refine (orThrow_returns hkey).bind ?_
  intro _ _ hpost
  obtain ⟨rfl, rfl⟩ := hpost
  refine returns_pure ⟨congrArg clean hr, ⟨⟨m, hk, hstored⟩, h.cache, h.cached, h.keyLength,
    h.valid⟩, k, hcount, rfl⟩

theorem Valid.clean_iff {r : Node} (h : clean r = n) : Valid id r ↔ Valid id n := by
  subst h
  exact ⟨fun h => ⟨h.1, h.2, h.3, h.4, h.5⟩, fun h => ⟨h.1, h.2, h.3, h.4, h.5⟩⟩

/-- A read of a cached node. The data of the operation does not matter. -/
theorem odsRead_hit (h : Shows codec c V) {r : Node} (hit : c.cache.find? id = some r)
    (data : Node) :
    Returns (odsAccess codec ⟨id, codec.serialize data, .read⟩) c fun s c' =>
      s = codec.serialize r ∧ c' = { c with
        readCount := c.readCount + 1
        cache := { c.cache with lruTable := id :: c.cache.lruTable.erase id } } := by
  have hv := h.valid id _ (h.cached id r hit)
  have hne : r.id ≠ 0 := by
    have hid : r.id = id := hv.id_eq
    have hpos := hv.pos
    omega
  refine (orThrow_returns (codec.roundTrip _)).bind ?_
  intro _ c hpost
  obtain ⟨rfl, rfl⟩ := hpost
  refine returns_modify.bind ?_
  intro _ _ hstep
  subst hstep
  refine (cacheGet_hit (c := { c with readCount := c.readCount + 1 }) hit).bind ?_
  intro _ _ hpost
  obtain ⟨rfl, rfl⟩ := hpost
  rw [if_pos hne]
  exact returns_pure ⟨rfl, rfl⟩

theorem readFromOram_hit (h : Shows codec c V) {r : Node} (hit : c.cache.find? id = some r) :
    Returns (readFromOram codec id) c fun r' c' => r' = r ∧ c' = { c with
      readCount := c.readCount + 1
      cache := { c.cache with lruTable := id :: c.cache.lruTable.erase id } } := by
  refine (odsRead_hit h hit _).bind ?_
  intro _ _ hpost
  obtain ⟨rfl, rfl⟩ := hpost
  exact orThrow_returns (codec.roundTrip r)

theorem odsRead_miss (h : Shows codec c V) (hV : V id = some n)
    (hmiss : c.cache.find? id = none) (data : Node) :
    Returns (odsAccess codec ⟨id, codec.serialize data, .read⟩) c fun s c' =>
      ∃ r, s = codec.serialize r ∧ clean r = n ∧ r.oldTag = r.posTag ∧ Shows codec c' V ∧
        ∃ k, k.accesses = c.controller.accesses + 1 ∧ c' = { c.withController k with
          readCount := c.readCount + 1
          cache := c.cache.place id r } := by
  refine (orThrow_returns (codec.roundTrip _)).bind ?_
  intro _ c hpost
  obtain ⟨rfl, rfl⟩ := hpost
  refine returns_modify.bind ?_
  intro _ _ hstep
  subst hstep
  refine (cacheGet_miss (c := { c with readCount := c.readCount + 1 }) hmiss).bind ?_
  intro _ _ hpost
  obtain ⟨rfl, rfl⟩ := hpost
  rw [if_neg (by simp [Node.ofTag])]
  have h₁ : Shows codec { c with readCount := c.readCount + 1 } V := h.congr rfl rfl rfl
  refine (cacheHelper_returns h₁ hV hmiss).bind ?_
  intro r _ hpost
  obtain ⟨hr, h₂, k, hk, rfl⟩ := hpost
  have hclean : clean { r with oldTag := r.posTag } = n := hr
  have hv : Valid id { r with oldTag := r.posTag } :=
    (Valid.clean_iff hclean).mpr (h.valid id n hV)
  refine (cachePut_returns h₂ hv).bind ?_
  intro _ _ hstep
  subst hstep
  refine returns_pure ⟨_, rfl, hclean, rfl, ?_, k, hk, rfl⟩
  have hplace := h₂.place hv
  rwa [hclean, ← hV, Function.update_eq_self] at hplace

theorem readFromOram_miss (h : Shows codec c V) (hV : V id = some n)
    (hmiss : c.cache.find? id = none) :
    Returns (readFromOram codec id) c fun r c' => clean r = n ∧ r.oldTag = r.posTag ∧
      Shows codec c' V ∧ ∃ k, k.accesses = c.controller.accesses + 1 ∧
        c' = { c.withController k with
          readCount := c.readCount + 1
          cache := c.cache.place id r } := by
  apply (odsRead_miss h hV hmiss _).bind
  intro _ c₁ hread
  obtain ⟨r, rfl, hr, htag, hs, hk⟩ := hread
  apply (orThrow_returns (codec.roundTrip r)).imp
  intro _ c₂ hpost
  obtain ⟨rfl, rfl⟩ := hpost
  exact ⟨hr, htag, hs, hk⟩

/-- What reads of different nodes count: each is a read, and those of nodes that are not cached
are accesses of the memory, after which the node is cached. -/
structure Counted (c : Client) (ids : List ℤ) (c' : Client) : Prop where
  readCount : c'.readCount = c.readCount + ids.length
  writeCount : c'.writeCount = c.writeCount
  accesses : c'.controller.accesses =
    c.controller.accesses + (ids.filter fun i => ¬ Cached c i).length
  items : c'.cache.cacheItems.length =
    c.cache.cacheItems.length + (ids.filter fun i => ¬ Cached c i).length
  cached : ∀ i, Cached c' i ↔ i ∈ ids ∨ Cached c i

theorem Counted.nil (c : Client) : Counted c [] c :=
  ⟨(add_zero _).symm, rfl, rfl, rfl, fun i => by simp⟩

theorem Counted.cons {c'' : Client} {ids : List ℤ} (h : Counted c [id] c')
    (h' : Counted c' ids c'') (hid : id ∉ ids) : Counted c (id :: ids) c'' := by
  have hfilter : (ids.filter fun i => ¬ Cached c' i) = ids.filter fun i => ¬ Cached c i := by
    apply List.filter_congr
    intro i hi
    have hne : i ≠ id := fun heq => hid (heq ▸ hi)
    simp [h.cached i, hne]
  have hsplit : ((id :: ids).filter fun i => ¬ Cached c i).length =
      ([id].filter fun i => ¬ Cached c i).length + (ids.filter fun i => ¬ Cached c i).length := by
    rw [← List.length_append, ← List.filter_append, List.singleton_append]
  refine ⟨?_, h'.writeCount.trans h.writeCount, ?_, ?_, ?_⟩
  · rw [h'.readCount, h.readCount, List.length_singleton, List.length_cons]
    push_cast
    ring
  · rw [h'.accesses, h.accesses, hsplit, hfilter]
    omega
  · rw [h'.items, h.items, hsplit, hfilter]
    omega
  · intro i
    rw [h'.cached, h.cached, List.mem_singleton, List.mem_cons]
    tauto

theorem readFromOram_returns (h : Shows codec c V) (hV : V id = some n) :
    Returns (readFromOram codec id) c fun r c' => clean r = n ∧
      Evolves codec {id} c V c' V ∧ Counted c [id] c' := by
  cases hfind : c.cache.find? id with
  | some r =>
    refine (readFromOram_hit h hfind).imp ?_
    intro r _ hpost
    obtain ⟨rfl, rfl⟩ := hpost
    have hclean : clean r = n := by
      rw [h.cached id r hfind] at hV
      exact Option.some.inj hV
    have hcached : Cached c id := by simp [Cached, hfind]
    refine ⟨hclean, ?_, ?_⟩
    · exact ⟨(h.lru _).congr rfl rfl rfl, rfl, rfl, fun _ hi => hi,
        fun _ _ => ⟨rfl, fun hi => hi⟩, fun _ _ => rfl⟩
    · refine ⟨rfl, rfl, by simp [hcached], by simp [hcached], ?_⟩
      intro i
      change Cached c i ↔ i ∈ [id] ∨ Cached c i
      constructor
      · exact Or.inr
      · rintro (hi | hi)
        · exact (List.mem_singleton.mp hi) ▸ hcached
        · exact hi
  | none =>
    refine (readFromOram_miss h hV hfind).imp ?_
    intro r _ hpost
    obtain ⟨hr, _, hs, k, hk, rfl⟩ := hpost
    have hv : Valid id r := (Valid.clean_iff hr).mpr (h.valid id n hV)
    have hcached : ∀ i, Cached { c with cache := c.cache.place id r } i ↔ i = id ∨ Cached c i :=
      cached_place h
    have hmissing : ¬ Cached c id := not_not.mpr hfind
    refine ⟨hr, ⟨hs, rfl, rfl, ?_, ?_, fun _ _ => rfl⟩, ?_⟩
    · intro i hi
      exact (hcached i).mpr (Or.inr hi)
    · intro i hi
      exact ⟨rfl, fun hc => ((hcached i).mp hc).resolve_left hi⟩
    · refine ⟨rfl, rfl, ?_, ?_, ?_⟩
      · change k.accesses = _
        simpa [hmissing] using hk
      · have hlen : (c.cache.place id r).cacheItems.length = _ := length_place hfind
        simpa [hmissing] using hlen
      · intro i
        rw [List.mem_singleton]
        exact hcached i

theorem odsWrite_hit (h : Shows codec c V) (hv : Valid id n) (hc : Cached c id) :
    Returns (odsAccess codec ⟨n.id, codec.serialize n, .write⟩) c fun s c' =>
      s = codec.serialize n ∧ Evolves codec {id} c V c' (Function.update V id (some (clean n))) ∧
        Cached c' id := by
  rcases hv.id_eq with rfl
  rcases Option.ne_none_iff_exists'.mp hc with ⟨r, hit⟩
  have hr : r.id = n.id := (h.valid _ _ (h.cached _ r hit)).id_eq
  have hne : r.id ≠ 0 := by
    have hpos := hv.pos
    omega
  refine (orThrow_returns (codec.roundTrip n)).bind ?_
  intro n c hpost
  obtain ⟨rfl, rfl⟩ := hpost
  refine returns_modify.bind ?_
  intro _ _ hstep
  subst hstep
  refine (cacheGet_hit (c := { c with writeCount := c.writeCount + 1 }) hit).bind ?_
  intro _ _ hpost
  obtain ⟨rfl, rfl⟩ := hpost
  rw [if_pos hne, hr]
  have h₁ : Shows codec { c with
      writeCount := c.writeCount + 1
      cache := { c.cache with lruTable := n.id :: c.cache.lruTable.erase n.id } } V :=
    (h.lru _).congr rfl rfl rfl
  refine (cachePut_returns h₁ hv).bind ?_
  intro _ _ hstep
  subst hstep
  have hev := Evolves.place h₁ hv
  refine returns_pure ⟨rfl, ?_, (cached_place h₁ _).mpr (Or.inl rfl)⟩
  exact ⟨hev.shows', rfl, rfl, hev.keeps, hev.only, hev.uncached⟩

theorem odsWrite_miss (h : Shows codec c V) (hv : Valid id n) (hV : V id ≠ none)
    (hmiss : c.cache.find? id = none) :
    Returns (odsAccess codec ⟨n.id, codec.serialize n, .write⟩) c fun s c' =>
      s = codec.serialize n ∧ Evolves codec {id} c V c' (Function.update V id (some (clean n))) ∧
        Cached c' id := by
  rcases hv.id_eq with rfl
  rcases Option.ne_none_iff_exists'.mp hV with ⟨old, hold⟩
  apply (orThrow_returns (codec.roundTrip n)).bind
  intro _ c₁ hnode
  obtain ⟨rfl, rfl⟩ := hnode
  apply returns_modify.bind
  intro _ c₂ hcount
  subst hcount
  have h₂ : Shows codec { c₁ with writeCount := c₁.writeCount + 1 } V := h.congr rfl rfl rfl
  apply (cacheGet_miss (c := { c₁ with writeCount := c₁.writeCount + 1 }) hmiss).bind
  intro _ c₃ hget
  obtain ⟨rfl, rfl⟩ := hget
  rw [if_neg (by simp [Node.ofTag])]
  apply (cacheHelper_returns h₂ hold hmiss).bind
  intro r c₄ hfetch
  obtain ⟨_, h₄, k, _, rfl⟩ := hfetch
  apply (cachePut_returns h₄ hv).bind
  intro _ c₅ hput
  subst hput
  have hev := Evolves.place h₄ hv
  refine returns_pure ⟨rfl, ?_, (cached_place h₄ _).mpr (Or.inl rfl)⟩
  exact ⟨hev.shows', rfl, rfl, hev.keeps, hev.only, hev.uncached⟩

theorem odsWrite_returns (h : Shows codec c V) (hv : Valid id n) (hV : V id ≠ none) :
    Returns (odsAccess codec ⟨n.id, codec.serialize n, .write⟩) c fun s c' =>
      s = codec.serialize n ∧ Evolves codec {id} c V c' (Function.update V id (some (clean n))) ∧
        Cached c' id := by
  by_cases hc : Cached c id
  · exact odsWrite_hit h hv hc
  · exact odsWrite_miss h hv hV (not_not.mp hc)

theorem writeToOram_returns (h : Shows codec c V) (hv : Valid id n) (hc : Cached c id) :
    Returns (writeToOram codec n) c fun _ c' =>
      Evolves codec {id} c V c' (Function.update V id (some (clean n))) ∧ Cached c' id := by
  refine (odsWrite_hit h hv hc).bind ?_
  intro _ _ hpost
  obtain ⟨_, hpost⟩ := hpost
  exact returns_pure hpost

theorem odsInsert_returns (h : Shows codec c V) (hv : Valid id n) :
    Returns (odsAccess codec ⟨n.id, codec.serialize n, .insert⟩) c fun s c' =>
      s = codec.serialize n ∧ Evolves codec {id} c V c' (Function.update V id (some (clean n))) ∧
        Cached c' id := by
  rcases hv.id_eq with rfl
  refine (orThrow_returns (codec.roundTrip n)).bind ?_
  intro _ _ hpost
  obtain ⟨rfl, rfl⟩ := hpost
  refine (cachePut_returns h hv).bind ?_
  intro _ _ hstep
  subst hstep
  exact returns_pure ⟨rfl, Evolves.place h hv, (cached_place h _).mpr (Or.inl rfl)⟩

def settled (tags : ℤ → ℤ) (c : Client) (V : ℤ → Option Node) : ℤ → Option Node := fun i =>
  if Cached c i then (V i).map fun n => clean (tagged tags n) else V i

theorem retagCache_returns (h : Shows codec c V) :
    Returns retagCache c fun _ c' => ∃ tags k, (∀ i, ¬ Cached c i → tags i = 0) ∧
      k.accesses = c.controller.accesses ∧ Shows codec c' (settled tags c V) ∧
      c' = { c.withController k with
        rootPos := tags c.rootId
        cache := mapItems (tagged tags) c.cache } := by
  rcases h.memory with ⟨m, hserves, hstored⟩
  refine returns_get.bind ?_
  intro _ c hpost
  obtain ⟨rfl, rfl⟩ := hpost
  refine (onController_returns (updatePos_returns h.cache hserves c.rootId)).bind ?_
  rintro ⟨_, _⟩ _ ⟨k, ⟨hk, hcount, tags, rfl, hnone, rfl⟩, rfl⟩
  refine returns_modify.imp ?_
  intro _ _ hstep
  subst hstep
  refine ⟨tags, k, fun i hi => hnone i (not_not.mp hi), hcount, ?_, rfl⟩
  refine ⟨⟨m, hk, ?_⟩, mapItems_wellFormed _ h.cache fun _ => rfl, ?_, h.keyLength, ?_⟩
  · intro i hi hfree
    have hnot : ¬ Cached c i := by
      simpa [find?_mapItems, Cached] using hfree
    rw [settled, if_neg hnot]
    exact hstored i hi (not_not.mp hnot)
  · intro i n hn
    rw [find?_mapItems] at hn
    rcases Option.map_eq_some_iff.mp hn with ⟨r, hr, rfl⟩
    have hc : Cached c i := by simp [Cached, hr]
    rw [settled, if_pos hc, h.cached i r hr]
    rfl
  · intro i n hn
    rw [settled] at hn
    split at hn
    · rcases Option.map_eq_some_iff.mp hn with ⟨r, hr, rfl⟩
      have hv := h.valid i r hr
      exact ⟨hv.1, hv.2, hv.3, hv.4, hv.5⟩
    · exact h.valid i n hn

theorem dummyRead_returns (h : Shows codec c V) :
    Returns dummyRead c fun _ c' => Shows codec c' V ∧
      ∃ k, k.accesses = c.controller.accesses + 1 ∧ c' = c.withController k := by
  rcases h.memory with ⟨m, hserves, hstored⟩
  refine (onController_returns (access_read_returns hserves (by decide) _)).bind ?_
  intro _ _ hpost
  obtain ⟨k, ⟨_, hk, hcount⟩, rfl⟩ := hpost
  exact returns_pure ⟨⟨⟨m, hk, hstored⟩, h.cache, h.cached, h.keyLength, h.valid⟩, k, hcount, rfl⟩

theorem dummyWrite_returns (h : Shows codec c V) :
    Returns (dummyWrite codec) c fun _ c' => Shows codec c' V ∧
      ∃ k, k.accesses = c.controller.accesses + 1 ∧ c' = c.withController k := by
  rcases h.memory with ⟨m, hserves, hstored⟩
  refine (onController_returns (access_write_returns hserves (by decide) _)).bind ?_
  intro _ _ hpost
  obtain ⟨k, ⟨hk, hcount⟩, rfl⟩ := hpost
  refine returns_pure ⟨⟨⟨_, hk, ?_⟩, h.cache, h.cached, h.keyLength, h.valid⟩, k, hcount, rfl⟩
  intro i hi hfree
  rw [Function.update_of_ne hi.ne']
  exact hstored i hi hfree

theorem dummies_returns {dummy : ClientM PUnit} (hdummy : ∀ c, Shows codec c V →
      Returns dummy c fun _ c' => Shows codec c' V ∧
        ∃ k, k.accesses = c.controller.accesses + 1 ∧ c' = c.withController k)
    (h : Shows codec c V) (rounds : ℕ) :
    Returns ((List.range rounds).forM fun _ => dummy) c fun _ c' => Shows codec c' V ∧
      ∃ k, k.accesses = c.controller.accesses + rounds ∧ c' = c.withController k := by
  refine (returns_forM (fun l u => Shows codec u V ∧ ∃ k,
    k.accesses + l.length = c.controller.accesses + rounds ∧ u = c.withController k) ?_ ?_).imp ?_
  · intro a l u hpost
    obtain ⟨hu, k, hk, rfl⟩ := hpost
    refine (hdummy _ hu).imp ?_
    intro _ _ hpost
    obtain ⟨hu', k', hk', rfl⟩ := hpost
    refine ⟨hu', k', ?_, rfl⟩
    rw [List.length_cons] at hk
    change k'.accesses = k.accesses + 1 at hk'
    omega
  · exact ⟨h, c.controller, by rw [List.length_range], rfl⟩
  · intro _ _ hpost
    obtain ⟨hu, k, hk, rfl⟩ := hpost
    exact ⟨hu, k, hk, rfl⟩

theorem evictNode_writes (h : Shows codec c V) {m : ℤ → Option Str}
    (hserves : Serves c.controller m) {rest : List (ℤ × Node)}
    (hitems : c.cache.cacheItems = (id, n) :: rest) :
    Returns (evictNode codec) c fun _ c' => ∃ s k, Stored codec c.secretKey (V id) (some s) ∧
      Serves k (Function.update m id (some s)) ∧ k.accesses = c.controller.accesses + 1 ∧
      c' = { c.withController k with cache := c.cache.pop } := by
  have hfind : c.cache.find? id = some n :=
    (find?_eq_some h.cache.nodup).mpr (hitems ▸ List.mem_cons_self)
  have hV := h.cached id n hfind
  have hv : Valid id n := (Valid.clean_iff rfl).mpr (h.valid id _ hV)
  rcases hv.id_eq with rfl
  rcases decrypt_encrypt h.keyLength hv.data with ⟨data, hdata, _⟩
  rcases decrypt_encrypt h.keyLength hv.key with ⟨key, hkey, _⟩
  refine returns_get.bind ?_
  intro _ c hpost
  obtain ⟨rfl, rfl⟩ := hpost
  rw [hitems]
  refine (orThrow_returns hdata).bind ?_
  intro data c hpost
  obtain ⟨rfl, rfl⟩ := hpost
  refine (orThrow_returns hkey).bind ?_
  intro key c hpost
  obtain ⟨rfl, rfl⟩ := hpost
  have hrange : 0 ≤ ({ n with data := data, key := key } : Node).id ∧
      ({ n with data := data, key := key } : Node).id < 2 ^ 31 := ⟨hv.pos.le, hv.lt⟩
  refine (onController_returns (direct_write_returns hserves hrange)).bind ?_
  intro _ _ hpost
  obtain ⟨k, ⟨hk, hcount⟩, rfl⟩ := hpost
  refine returns_modify.imp ?_
  intro _ _ hstep
  subst hstep
  have hstored : Stored codec c.secretKey (V n.id)
      (some (codec.serialize { n with data := data, key := key })) := by
    rw [hV]
    exact ⟨n, _, rfl, rfl, data, key, hdata, hkey, rfl⟩
  exact ⟨_, k, hstored, hk, hcount, rfl⟩

theorem evictNode_returns (h : Shows codec c V) {rest : List (ℤ × Node)}
    (hitems : c.cache.cacheItems = (id, n) :: rest) :
    Returns (evictNode codec) c fun _ c' => Shows codec c' V ∧
      ∃ k, k.accesses = c.controller.accesses + 1 ∧
        c' = { c.withController k with cache := c.cache.pop } := by
  rcases h.memory with ⟨m, hserves, hstored⟩
  refine (evictNode_writes h hserves hitems).imp ?_
  intro _ _ hpost
  obtain ⟨s, k, hs, hk, hcount, rfl⟩ := hpost
  refine ⟨⟨⟨_, hk, ?_⟩, pop_wellFormed h.cache, ?_, h.keyLength, h.valid⟩, k, hcount, rfl⟩
  · intro i hi hfree
    change c.cache.pop.find? i = none at hfree
    rw [find?_pop h.cache hitems] at hfree
    by_cases heq : i = id
    · subst heq
      rw [Function.update_self]
      exact hs
    · rw [if_neg heq] at hfree
      rw [Function.update_of_ne heq]
      exact hstored i hi hfree
  · intro i r hr
    change c.cache.pop.find? i = some r at hr
    rw [find?_pop h.cache hitems] at hr
    split at hr
    · cases hr
    · exact h.cached i r hr

theorem evictCache_returns (h : Shows codec c V) :
    Returns (evictCache codec) c fun _ c' => Shows codec c' V ∧ c'.cache.cacheItems = [] ∧
      ∃ k cache, k.accesses = c.controller.accesses + c.cache.cacheItems.length ∧
        c' = { c.withController k with cache := cache } := by
  refine returns_get.bind ?_
  intro _ c hpost
  obtain ⟨rfl, rfl⟩ := hpost
  refine (returns_forM (fun l u => Shows codec u V ∧
    u.cache.cacheItems.length = l.length ∧ ∃ k cache,
    k.accesses + l.length = c.controller.accesses + c.cache.cacheItems.length ∧
    u = { c.withController k with cache := cache }) ?_ ?_).imp ?_
  · intro a l u hpost
    obtain ⟨hu, hlen, k, cache, hk, rfl⟩ := hpost
    rw [List.length_cons] at hlen hk
    rcases List.exists_cons_of_length_eq_add_one hlen with ⟨⟨i, r⟩, rest, hitems⟩
    refine (evictNode_returns hu hitems).imp ?_
    intro _ _ hpost
    obtain ⟨hu', k', hk', rfl⟩ := hpost
    refine ⟨hu', ?_, k', _, ?_, rfl⟩
    · change cache.cacheItems.tail.length = l.length
      rw [List.length_tail]
      exact Nat.sub_eq_of_eq_add hlen
    · change k'.accesses = k.accesses + 1 at hk'
      omega
  · exact ⟨h, rfl, c.controller, c.cache, rfl, rfl⟩
  · intro _ u hpost
    obtain ⟨hu, hlen, k, cache, hk, hcache⟩ := hpost
    exact ⟨hu, List.eq_nil_of_length_eq_zero hlen, k, cache, hk, hcache⟩

structure Finalized (codec : Codec Node) (pad : ℤ) (c : Client) (V : ℤ → Option Node)
    (tags : ℤ → ℤ) (c' : Client) : Prop where
  shows' : Shows codec c' (settled tags c V)
  nothing_cached : c'.cache.cacheItems = []
  tags_eq : ∀ i, ¬ Cached c i → tags i = 0
  rootId : c'.rootId = c.rootId
  rootPos : c'.rootPos = tags c.rootId
  readCount : c'.readCount = 0
  writeCount : c'.writeCount = 0
  accesses : c'.controller.accesses = c.controller.accesses + dummyRounds pad c.readCount +
    c.cache.cacheItems.length + dummyRounds pad c.writeCount

theorem odsFinalize_returns (h : Shows codec c V) (pad : ℤ) :
    Returns (odsFinalize codec pad) c fun _ c' => ∃ tags, Finalized codec pad c V tags c' := by
  refine (retagCache_returns h).bind ?_
  intro _ _ hpost
  obtain ⟨tags, k₁, hnone, hk₁, h₁, rfl⟩ := hpost
  refine returns_get.bind ?_
  intro _ _ hpost
  obtain ⟨rfl, rfl⟩ := hpost
  refine (dummies_returns (fun _ => dummyRead_returns) h₁ _).bind ?_
  intro _ _ hpost
  obtain ⟨h₂, k₂, hk₂, rfl⟩ := hpost
  refine (evictCache_returns h₂).bind ?_
  intro _ _ hpost
  obtain ⟨h₃, hempty, k₃, cache, hk₃, rfl⟩ := hpost
  refine returns_get.bind ?_
  intro _ _ hpost
  obtain ⟨rfl, rfl⟩ := hpost
  refine (dummies_returns (fun _ => dummyWrite_returns) h₃ _).bind ?_
  intro _ _ hpost
  obtain ⟨h₄, k₄, hk₄, rfl⟩ := hpost
  refine returns_modify.imp ?_
  intro _ _ hstep
  subst hstep
  refine ⟨tags, h₄.congr rfl rfl rfl, hempty, hnone, rfl, rfl, rfl, rfl, ?_⟩
  have hlen : (mapItems (tagged tags) c.cache).cacheItems.length = c.cache.cacheItems.length :=
    List.length_map _
  change k₂.accesses = k₁.accesses + dummyRounds pad c.readCount at hk₂
  change k₃.accesses = k₂.accesses + (mapItems (tagged tags) c.cache).cacheItems.length at hk₃
  change k₄.accesses = k₃.accesses + dummyRounds pad c.writeCount at hk₄
  change k₄.accesses = c.controller.accesses + dummyRounds pad c.readCount +
    c.cache.cacheItems.length + dummyRounds pad c.writeCount
  omega

end ClientSession
