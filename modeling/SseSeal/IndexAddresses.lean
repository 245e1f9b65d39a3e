import SseSeal.BalancedDictionary
import SseSeal.KeywordIndex
import SseSeal.SessionAddresses
import SseSeal.SubOramAddresses

/-! The addresses of the keyword index. The dictionary is accessed at one more than the subscript
at which each keyword occurs first, and the sub-ORAMs at the slots of the sorted memory. -/
namespace IndexAddresses

open Bytes Objects ObjectArchive StateExcept StringCipher SortedMap BinaryTree AvlTree
open OramAccessController OdictClient ClientSession ClientTree Dictionary BalancedDictionary
open Padding PaddedMemory SubArrays SubOrams KeywordIndex AddressTrace SessionAddresses
open SubOramAddresses

variable {p : Setup} {codec : Codec Node} {fuel : ℕ} {s : Index} {memory sorted : Memory}
  {first count : Dict Str ℕ} {w : Str} {nodes : List Node} {start i : ℤ} {mapKey : Str}
  {k₀ : Controller} {c : Client} {V : ℤ → Option Node}

theorem mem_ids_treeOf_iff : i ∈ ids (treeOf nodes) ↔
    ∃ key n, (nodes.find? fun n => n.key = key) = some n ∧ n.id = i := by
  have hentry : ∀ key item, (key, item) ∈ entries (treeOf nodes) ↔
      ∃ n, (nodes.find? fun n => n.key = key) = some n ∧ (entryOf n).2 = item := by
    intro key item
    rw [← lookup_eq_some (ordered_treeOf nodes), lookup_treeOf_eq, Option.map_eq_some_iff]
  rw [ids, List.mem_map]
  constructor
  · intro h
    obtain ⟨⟨key, item⟩, hmem, hid⟩ := h
    obtain ⟨n, hn, rfl⟩ := (hentry key item).mp hmem
    exact ⟨key, n, hn, hid⟩
  · intro h
    obtain ⟨key, n, hn, hid⟩ := h
    exact ⟨(key, (entryOf n).2), (hentry _ _).mpr ⟨n, hn, rfl⟩, hid⟩

/-- The first node of a keyword is numbered by its first occurrence. -/
theorem Indexes.first_id (h : Indexes first count memory start nodes) {n : Node}
    (hn : (nodes.find? fun n => n.key = w) = some n) :
    w ∈ keys memory ∧ n.id = start + (keys memory).idxOf w := by
  obtain ⟨hkey, before, after, hnodes, hbefore⟩ := List.find?_eq_some_iff_append.mp hn
  simp only [decide_eq_true_eq] at hkey
  have hkeys : keys memory = before.map Node.key ++ w :: after.map Node.key := by
    rw [← h.key, hnodes, List.map_append, List.map_cons, hkey]
  have hnew : w ∉ before.map Node.key := by
    intro hin
    obtain ⟨b, hb, hbw⟩ := List.mem_map.mp hin
    simpa [hbw] using hbefore b hb
  have hidx : (keys memory).idxOf w = before.length := by
    rw [hkeys, List.idxOf_append_of_notMem hnew, List.idxOf_cons_self, List.length_map,
      Nat.add_zero]
  have hid : (nodes.map Node.id)[before.length]? = some n.id := by
    rw [hnodes, List.map_append, List.map_cons, List.getElem?_append_right (by simp)]
    simp
  constructor
  · rw [hkeys]
    exact List.mem_append_right _ List.mem_cons_self
  · rw [h.id, List.getElem?_map, Option.map_eq_some_iff] at hid
    obtain ⟨k, hk, hid⟩ := hid
    have hlt := (List.getElem?_eq_some_iff.mp hk).1
    rw [List.length_range] at hlt
    rw [List.getElem?_range hlt, Option.some.injEq] at hk
    rw [hidx, ← hid, hk]

theorem Indexes.mem_ids (h : Indexes first count memory 1 nodes) : i ∈ ids (treeOf nodes) ↔
    ∃ w ∈ keys memory, i = (keys memory).idxOf w + 1 := by
  rw [mem_ids_treeOf_iff]
  constructor
  · intro hfound
    obtain ⟨w, n, hn, rfl⟩ := hfound
    obtain ⟨hw, hid⟩ := Indexes.first_id h hn
    exact ⟨w, hw, by rw [hid, add_comm]⟩
  · intro hfound
    obtain ⟨w, hw, rfl⟩ := hfound
    have hsome : (nodes.find? fun n => n.key = w).isSome := by
      rw [← h.key] at hw
      obtain ⟨n, hn, hkey⟩ := List.mem_map.mp hw
      exact List.find?_isSome.mpr ⟨n, hn, by simpa using hkey⟩
    obtain ⟨n, hn⟩ := Option.isSome_iff_exists.mp hsome
    exact ⟨w, n, hn, by rw [(Indexes.first_id h hn).2, add_comm]⟩

theorem Idle.held (h : Idle codec nodes c V) (hi : i ∈ ids (treeOf nodes)) :
    ∃ m, Serves c.controller m ∧ m i ≠ none := by
  obtain ⟨n, hn, _⟩ := PositionTags.carries_link h.carries hi
  obtain ⟨m, hserves, hstored⟩ := h.shows'.memory
  have hmem := hstored i (h.shows'.valid i n hn).pos (not_not.mp (h.not_cached i))
  rw [hn] at hmem
  obtain ⟨_, data, _, hdata, _⟩ := hmem
  refine ⟨m, hserves, ?_⟩
  rw [hdata]
  exact Option.some_ne_none data

/-- An index that used the addresses of its nodes and of its slots only, since its dictionary was
`k₀` and its sub-ORAMs were made. -/
structure IndexUses (p : Setup) (codec : Codec Node) (fuel : ℕ) (mapKey : Str) (k₀ : Controller)
    (sorted : Memory) (count : Dict Str ℕ) (s : Index) : Prop where
  client : ∃ nodes V, Idle codec nodes s.client V ∧ Insertable nodes ∧ nodes.length < fuel ∧
    Indexes (firstOccurrence sorted) count sorted 1 nodes ∧
    (treeOf nodes).numNodes < 2 ^ 31 - 1 ∧ Uses codec (nodeIds nodes) k₀ s.client.controller
  subOrams : AllUse codec p mapKey (slotAddresses p sorted.length) s.adjOramAccessControllers
  memorySize : s.memorySize = sorted.length

theorem adjInsert_uses (hsorted : Sorted memory sorted count) (insertPad : ℤ → ℤ)
    (hidle : Idle codec [] s.client V) (hstart : s.client.nodeCount = 1)
    (hkey : 16 ≤ p.secretKey.length) (hks : s.adjOramAccessControllers = [])
    (hnew : ∀ i, Serves (p.newController mapKey i) fun _ => none)
    (halpha : p.alpha ≤ baseOf p.log sorted.length) (hlen : sorted.length < 2 ^ 31)
    (hs : ∀ b ∈ memory, Storable b.1 ∧ Storable (documentCodec.serialize b.2))
    (hf : sorted.length < fuel) (hsize : s.memorySize = sorted.length)
    (hrepeat : ¬ (keys sorted).Nodup) (huses : Uses codec {0} k₀ s.client.controller) :
    Returns (adjInsert p codec fuel insertPad sorted (firstOccurrence sorted) count mapKey) s
      fun _ s' => IndexUses p codec fuel mapKey k₀ sorted count s' ∧
        ∃ arrays, subArrays p (sorted.map Prod.snd) = some arrays ∧
          List.Forall₂ (Keeps p) s'.adjOramAccessControllers arrays := by
  apply (makeNodes_returns (firstOccurrence_isSome sorted) hsorted.counted).bind
  intro nodes s₁ hpost
  obtain ⟨hindexes, k, rfl⟩ := hpost
  rw [hstart] at hindexes
  have hnodes := hindexes.length_eq
  have hins := hsorted.insertable hindexes hlen hs
  have hroom : (treeOf nodes).numNodes < 2 ^ 31 - 1 := by
    have hlt := numNodes_treeOf_lt (hindexes.key ▸ hrepeat)
    omega
  have hinsert : Returns (insertNodes codec fuel insertPad nodes) { s.client with nodeCount := k }
      fun _ c => (∃ V', Idle codec ([] ++ nodes) c V') ∧
        Uses codec (nodeIds ([] ++ nodes)) s.client.controller c.controller :=
    insertNodes_uses (Idle.nodeCount hidle k) (by simpa using hins) (by simpa [hnodes] using hf.le)
      hroom insertPad
  apply (onClient_returns (s := { s with client := { s.client with nodeCount := k } })
    hinsert).bind
  intro _ s₂ hpost
  obtain ⟨c, ⟨⟨V', hdone⟩, hsession⟩, rfl⟩ := hpost
  have hdocs : (sorted.map Prod.snd).length = sorted.length := List.length_map _
  have hinit : Returns (adjOramInit p mapKey (sorted.map Prod.snd)) s.adjOramAccessControllers
      fun _ ks => AllUse codec p mapKey (slotAddresses p sorted.length) ks ∧
        ∃ arrays, subArrays p (sorted.map Prod.snd) = some arrays ∧
          List.Forall₂ (Keeps p) ks arrays := by
    rw [hks]
    obtain ⟨_, ks, hrun, hkeeps⟩ := adjOramInit_keeps hkey hnew (by rwa [hdocs])
      (by rw [hdocs]; exact baseOf_le_of_lt p.log hlen) empty_storable
      (hsorted.documents_storable hs)
    have hends : Ends (adjOramInit p mapKey (sorted.map Prod.snd)) []
        (fun _ => AllUse codec p mapKey (slotAddresses p (sorted.map Prod.snd).length))
        fun _ => AllUse codec p mapKey (slotAddresses p (sorted.map Prod.snd).length) :=
      adjOramInit_uses (by rwa [hdocs]) rfl
    have hall := hends.post_of_ok hrun
    rw [hdocs] at hall
    exact ⟨_, ks, hrun, hall, hkeeps⟩
  apply (onSubOrams_returns (s := { s with client := c }) hinit).imp
  intro _ s₃ hpost
  obtain ⟨ks, ⟨hall, hkeeps⟩, rfl⟩ := hpost
  have hzero : ({0} : Set ℤ) ⊆ nodeIds nodes := fun i hi => Or.inl hi
  exact ⟨⟨⟨nodes, V', hdone, hins, by rwa [hnodes], hindexes, hroom,
    (huses.mono hzero).trans hsession⟩, hall, hsize⟩, hkeeps⟩

theorem readSubscripts_uses {size : ℕ} (hsize : size = sorted.length) (l : List ℕ) :
    Stable (IndexUses p codec fuel mapKey k₀ sorted count)
      (IndexUses p codec fuel mapKey k₀ sorted count) (readSubscripts p size l) := by
  subst hsize
  induction l with
  | nil => exact stable_pure _
  | cons i l ih =>
    have hread : Stable (AllUse codec p mapKey (slotAddresses p sorted.length))
        (AllUse codec p mapKey (slotAddresses p sorted.length)) (readSubscript p sorted.length i) :=
      readSubscript_uses (le_refl _)
    have hindex : Stable (IndexUses p codec fuel mapKey k₀ sorted count)
        (IndexUses p codec fuel mapKey k₀ sorted count)
        (onSubOrams (readSubscript p sorted.length i)) :=
      hread.focus Index.adjOramAccessControllers
        (fun ks s => { s with adjOramAccessControllers := ks }) IndexError.subOram
        (fun _ h => h.subOrams) (fun _ _ h hks => ⟨h.client, hks, h.memorySize⟩)
        fun _ _ h hks => ⟨h.client, hks, h.memorySize⟩
    apply hindex.bind
    intro doc
    exact ih.bind fun _ => stable_pure _

theorem search_uses (findPad : ℤ → ℤ) (w : Str) :
    Stable (IndexUses p codec fuel mapKey k₀ sorted count)
      (IndexUses p codec fuel mapKey k₀ sorted count) (search p codec fuel findPad w) := by
  have hfind : Stable (IndexUses p codec fuel mapKey k₀ sorted count)
      (IndexUses p codec fuel mapKey k₀ sorted count)
      (onClient (OdictClient.find codec fuel findPad w)) := by
    intro s h
    obtain ⟨nodes, V, hidle, hins, hf, hindexes, hroom, huses⟩ := h.client
    apply (onClient_returns (find_uses hidle hins hf hroom findPad w)).ends.imp
    · intro _ s₁ hpost
      obtain ⟨c, ⟨⟨V₁, hidle₁⟩, hsession⟩, rfl⟩ := hpost
      exact ⟨⟨nodes, V₁, hidle₁, hins, hf, hindexes, hroom, huses.trans hsession⟩, h.subOrams,
        h.memorySize⟩
    · exact fun _ _ h => h
  have hsubscripts : ∀ data, Stable (IndexUses p codec fuel mapKey k₀ sorted count)
      (IndexUses p codec fuel mapKey k₀ sorted count) (subscripts data) := by
    intro data
    apply (stable_orThrow (fun _ h => h) _ _).bind
    intro first
    apply (stable_orThrow (fun _ h => h) _ _).bind
    intro iw
    apply (stable_orThrow (fun _ h => h) _ _).bind
    intro second
    apply (stable_orThrow (fun _ h => h) _ _).bind
    intro countw
    exact (stable_orThrow (fun _ h => h) _ _).bind fun _ => stable_pure _
  have hreads : Stable (IndexUses p codec fuel mapKey k₀ sorted count)
      (IndexUses p codec fuel mapKey k₀ sorted count) (searchReads p codec fuel findPad w) := by
    apply hfind.bind
    intro node
    cases node with
    | none => exact stable_pure _
    | some node =>
      apply (hsubscripts _).bind
      intro l
      apply stable_get_bind
      intro s hs
      exact readSubscripts_uses hs.memorySize l
  apply hreads.bind
  intro reads
  exact stable_get.bind fun _ => stable_pure _

end IndexAddresses
