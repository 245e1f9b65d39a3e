import SseSeal.Dictionary
import SseSeal.IndexStrings
import SseSeal.PaddedMemory
import SseSeal.SortedBlocks
import SseSeal.SubOrams

/-! Keyword search: the padded memory is sorted by its keywords and held by sub-ORAMs, and the
dictionary tells where the entries of a keyword are. -/
namespace KeywordIndex

open Bytes Objects ObjectArchive StateExcept StringCipher SortedMap OramReadPathEviction
open OramMemory OramAccessController ClientCache OdictClient ClientSession ClientTree Dictionary
open Padding PaddedMemory IndexStrings SortedBlocks SubArrays SubOrams

structure Index where
  client : Client
  adjOramAccessControllers : List Controller
  memorySize : ℕ

inductive IndexError where
  | client (e : ClientError)
  | subOram (e : SubOramError)
  | invalidArgument
  | outOfRange
  | undefinedBehaviour
  | endlessLoop
  deriving DecidableEq, Repr

abbrev IndexM := EStateM IndexError Index

def onClient {α : Type} (x : ClientM α) : IndexM α :=
  focus Index.client (fun c s => { s with client := c }) .client x

def onSubOrams {α : Type} (x : SubOramM α) : IndexM α :=
  focus Index.adjOramAccessControllers (fun ks s => { s with adjOramAccessControllers := ks })
    .subOram x

/-- A sort by the keywords, which may leave the entries of a keyword in any order. -/
structure KeySort where
  sort : Memory → Memory
  perm : ∀ m, (sort m).Perm m
  sorted : ∀ m, (keys (sort m)).Pairwise (· ≤ ·)

def firstOccurrence (memory : Memory) : Dict Str ℕ :=
  memory.zipIdx.foldl (fun m e => m.alter e.1.1 fun v => v.getD e.2) .empty

section Operations

variable (p : Setup) (codec : Codec Node) (fuel : ℕ) (insertPad findPad : ℤ → ℤ)

def makeNode (first count : Dict Str ℕ) (keyword : Str) : IndexM Node := do
  let iw ← orThrow .outOfRange (first.find? keyword)
  let cntw ← orThrow .outOfRange (count.find? keyword)
  let s ← get
  set { s with client := { s.client with nodeCount := s.client.nodeCount + 1 } }
  return .fresh s.client.nodeCount keyword (indexValue iw cntw)

def makeNodes (first count : Dict Str ℕ) : Memory → IndexM (List Node)
  | [] => return []
  | e :: memory => do
    let node ← makeNode first count e.1
    return node :: (← makeNodes first count memory)

def adjInsert (memory : Memory) (first count : Dict Str ℕ) (mapKey : Str) : IndexM PUnit := do
  let nodes ← makeNodes first count memory
  onClient (insertNodes codec fuel insertPad nodes)
  onSubOrams (adjOramInit p mapKey (memory.map Prod.snd))

/-- The part of `adj_data_in` that follows the loop over the columns. -/
def loadMemory (sort : KeySort) (x : ℕ) (e : Entropy) (mapKey : Str) (memory : Memory) :
    IndexM PUnit := do
  let (padded, count) ← orThrow .endlessLoop
    (adjPadding p.log x p.secretKey memory (countTable memory) e)
  let memory := sort.sort padded.memory
  modify fun s => { s with memorySize := memory.length }
  adjInsert p codec fuel insertPad memory (firstOccurrence memory) count mapKey

/-- The subscripts that the loop of `search` takes for the data of a node. -/
def subscripts (indexData : Str) : IndexM (List ℕ) := do
  let res := split indexData underscore
  let iw ← orThrow .invalidArgument (stoul (← orThrow .undefinedBehaviour res[0]?))
  let countw ← orThrow .invalidArgument (stoul (← orThrow .undefinedBehaviour res[1]?))
  let n ← orThrow .endlessLoop
    (iterations (iw % 2 ^ 32) ((iw % 2 ^ 32 + countw % 2 ^ 32) % 2 ^ 32))
  return List.range' (iw % 2 ^ 32) n

def readSubscripts (size : ℕ) : List ℕ → IndexM (List (ℕ × Document))
  | [] => return []
  | i :: l => do
    let doc ← onSubOrams (readSubscript p size i)
    return (i, doc) :: (← readSubscripts size l)

def searchReads (keyword : Str) : IndexM (List (ℕ × Document)) := do
  match ← onClient (OdictClient.find codec fuel findPad keyword) with
  | none => return []
  | some node => do
    let l ← subscripts node.data
    readSubscripts p (← get).memorySize l

/-- `search`, which drops the documents with an id that no row can have. -/
def search (keyword : Str) : IndexM (List Document) := do
  let reads ← searchReads p codec fuel findPad keyword
  let size := (← get).memorySize
  return (reads.map Prod.snd).filter fun doc => doc.id < size

end Operations

theorem firstOccurrence_find? (memory : Memory) (w : Str) : (firstOccurrence memory).find? w =
    if w ∈ keys memory then some ((keys memory).idxOf w) else none := by
  induction memory using List.reverseRecOn with
  | nil => rfl
  | append_singleton memory e ih =>
    have hstep : firstOccurrence (memory ++ [e]) =
        (firstOccurrence memory).alter e.1 fun v => v.getD memory.length := by
      simp [firstOccurrence, List.zipIdx_append]
    have hkey : keys [e] = [e.1] := rfl
    have hlen : (keys memory).length = memory.length := List.length_map _
    rw [hstep, Dict.find?_alter, keys_append, hkey, List.idxOf_append]
    by_cases hw : w = e.1
    · subst hw
      rw [if_pos rfl, ih]
      by_cases hin : e.1 ∈ keys memory
      · simp [hin]
      · simp [hin, hlen]
    · rw [if_neg hw, ih]
      by_cases hin : w ∈ keys memory
      · simp [hin]
      · simp [hin, hw]

variable {p : Setup} {codec : Codec Node} {fuel : ℕ} {s : Index} {memory sorted : Memory}
  {first count : Dict Str ℕ} {w : Str}

def Indexed (first count : Dict Str ℕ) (n : Node) : Prop :=
  ∃ iw cntw, first.find? n.key = some iw ∧ count.find? n.key = some cntw ∧
    n.data = indexValue iw cntw

structure Indexes (first count : Dict Str ℕ) (memory : Memory) (start : ℤ) (nodes : List Node) :
    Prop where
  fresh : ∀ n ∈ nodes, n = Node.fresh n.id n.key n.data
  indexed : ∀ n ∈ nodes, Indexed first count n
  key : nodes.map Node.key = keys memory
  id : nodes.map Node.id = (List.range memory.length).map fun i : ℕ => start + (i : ℤ)

theorem makeNodes_returns (hfirst : ∀ e ∈ memory, (first.find? e.1).isSome)
    (hcount : ∀ e ∈ memory, (count.find? e.1).isSome) :
    Returns (makeNodes first count memory) s fun nodes s' =>
      Indexes first count memory s.client.nodeCount nodes ∧
        ∃ k, s' = { s with client := { s.client with nodeCount := k } } := by
  induction memory generalizing s with
  | nil => exact returns_pure ⟨⟨by simp, by simp, rfl, rfl⟩, s.client.nodeCount, rfl⟩
  | cons e memory ih =>
    obtain ⟨iw, hiw⟩ := Option.isSome_iff_exists.mp (hfirst e List.mem_cons_self)
    obtain ⟨cntw, hcntw⟩ := Option.isSome_iff_exists.mp (hcount e List.mem_cons_self)
    have hnode : Returns (makeNode first count e.1) s fun n s' =>
        n = Node.fresh s.client.nodeCount e.1 (indexValue iw cntw) ∧
          s' = { s with client := { s.client with nodeCount := s.client.nodeCount + 1 } } := by
      refine (orThrow_returns hiw).bind ?_
      intro _ s hpost
      obtain ⟨rfl, rfl⟩ := hpost
      refine (orThrow_returns hcntw).bind ?_
      intro _ s hpost
      obtain ⟨rfl, rfl⟩ := hpost
      refine returns_get.bind ?_
      intro _ s hpost
      obtain ⟨rfl, rfl⟩ := hpost
      refine returns_set.bind ?_
      intro _ _ hstep
      subst hstep
      exact returns_pure ⟨rfl, rfl⟩
    refine hnode.bind ?_
    intro _ _ hpost
    obtain ⟨rfl, rfl⟩ := hpost
    refine (ih (fun b hb => hfirst b (List.mem_cons_of_mem _ hb))
      fun b hb => hcount b (List.mem_cons_of_mem _ hb)).bind ?_
    intro nodes _ hpost
    obtain ⟨⟨hfresh, hindexed, hkey, hid⟩, k, rfl⟩ := hpost
    refine returns_pure ⟨⟨?_, ?_, ?_, ?_⟩, k, rfl⟩
    · intro n hn
      rcases List.mem_cons.mp hn with rfl | hn
      · rfl
      · exact hfresh n hn
    · intro n hn
      rcases List.mem_cons.mp hn with rfl | hn
      · exact ⟨iw, cntw, hiw, hcntw, rfl⟩
      · exact hindexed n hn
    · rw [List.map_cons, hkey]
      rfl
    · rw [List.map_cons, hid, List.length_cons, List.range_succ_eq_map, List.map_cons,
        List.map_map]
      congr 1
      · simp [Node.fresh]
      · apply List.map_congr_left
        intro i _
        simp only [Function.comp_apply, Nat.succ_eq_add_one]
        push_cast
        ring

theorem Indexes.insertable {nodes : List Node} (h : Indexes first count memory 1 nodes)
    (hlen : memory.length < 2 ^ 31) (hkeys : ∀ k ∈ keys memory, Storable k)
    (hfirst : ∀ k i, first.find? k = some i → i < 2 ^ 31)
    (hcount : ∀ k i, count.find? k = some i → i < 2 ^ 31) : Insertable nodes := by
  constructor
  · exact h.fresh
  · intro n hn
    have hid : n.id ∈ nodes.map Node.id := List.mem_map_of_mem hn
    rw [h.id] at hid
    obtain ⟨i, hi, heq⟩ := List.mem_map.mp hid
    rw [List.mem_range] at hi
    omega
  · intro n hn
    have hkey : n.key ∈ nodes.map Node.key := List.mem_map_of_mem hn
    rw [h.key] at hkey
    refine ⟨hkeys _ hkey, ?_⟩
    obtain ⟨iw, cntw, hiw, hcntw, hdata⟩ := h.indexed n hn
    have hlen₁ := toDecimal_length (show iw < 10 ^ 10 by have := hfirst _ _ hiw; omega)
    have hlen₂ := toDecimal_length (show cntw < 10 ^ 10 by have := hcount _ _ hcntw; omega)
    rw [Storable, hdata, indexValue, List.length_append, List.length_cons, blockBytes]
    omega
  · rw [h.id]
    refine List.Nodup.map ?_ List.nodup_range
    intro i j hij
    simpa using hij

variable {V : ℤ → Option Node} {x : ℕ} {e : Entropy} {mapKey : Str}

structure Serving (p : Setup) (codec : Codec Node) (fuel : ℕ) (sorted : Memory)
    (count : Dict Str ℕ) (s : Index) : Prop where
  client : ∃ nodes V, Idle codec nodes s.client V ∧ Insertable nodes ∧ nodes.length < fuel ∧
    Indexes (firstOccurrence sorted) count sorted 1 nodes
  documents : Holds p s.adjOramAccessControllers (sorted.map Prod.snd)
  memorySize : s.memorySize = sorted.length

theorem onClient_returns {α : Type} {y : ClientM α} {post : α → Client → Prop}
    (h : Returns y s.client post) :
    Returns (onClient y) s fun a s' => ∃ c, post a c ∧ s' = { s with client := c } :=
  h.focus Index.client (fun c s => { s with client := c }) IndexError.client

theorem onSubOrams_returns {α : Type} {y : SubOramM α} {post : α → List Controller → Prop}
    (h : Returns y s.adjOramAccessControllers post) :
    Returns (onSubOrams y) s fun a s' =>
      ∃ ks, post a ks ∧ s' = { s with adjOramAccessControllers := ks } :=
  h.focus Index.adjOramAccessControllers (fun ks s => { s with adjOramAccessControllers := ks })
    IndexError.subOram

structure Sorted (memory sorted : Memory) (count : Dict Str ℕ) : Prop where
  order : (keys sorted).Pairwise (· ≤ ·)
  aligned : ∃ padded, sorted.Perm padded ∧ Aligned memory padded count

theorem Sorted.counted (h : Sorted memory sorted count) :
    ∀ b ∈ sorted, (count.find? b.1).isSome := by
  obtain ⟨padded, hperm, haligned⟩ := h.aligned
  exact fun b hb => haligned.counted b (hperm.subset hb)

theorem Sorted.storable (h : Sorted memory sorted count)
    (hs : ∀ b ∈ memory, Storable b.1 ∧ Storable (documentCodec.serialize b.2)) :
    ∀ b ∈ sorted, Storable b.1 ∧ Storable (documentCodec.serialize b.2) := by
  obtain ⟨padded, hperm, haligned⟩ := h.aligned
  obtain ⟨added, rfl, hadded⟩ := haligned.added
  intro b hb
  rcases List.mem_append.mp (hperm.subset hb) with hb | hb
  · exact hs b hb
  · obtain ⟨hkey, hshort⟩ := hadded b hb
    refine ⟨?_, hshort.storable⟩
    rcases hkey with hkey | hkey
    · obtain ⟨a, ha, heq⟩ := List.mem_map.mp hkey
      exact heq ▸ (hs a ha).1
    · rw [Storable, hkey, blockBytes]
      decide

theorem firstOccurrence_isSome (sorted : Memory) :
    ∀ b ∈ sorted, ((firstOccurrence sorted).find? b.1).isSome := by
  intro b hb
  have hmem : b.1 ∈ keys sorted := List.mem_map_of_mem hb
  rw [firstOccurrence_find?, if_pos hmem]
  rfl

theorem Indexes.length_eq {nodes : List Node} {start : ℤ}
    (h : Indexes first count memory start nodes) : nodes.length = memory.length := by
  have hmap := congrArg List.length h.key
  rwa [List.length_map, keys, List.length_map] at hmap

theorem Sorted.insertable (h : Sorted memory sorted count) {nodes : List Node}
    (hindexes : Indexes (firstOccurrence sorted) count sorted 1 nodes)
    (hlen : sorted.length < 2 ^ 31)
    (hs : ∀ b ∈ memory, Storable b.1 ∧ Storable (documentCodec.serialize b.2)) :
    Insertable nodes := by
  have hlength : (keys sorted).length = sorted.length := List.length_map _
  refine hindexes.insertable hlen ?_ ?_ ?_
  · intro k hk
    obtain ⟨b, hb, rfl⟩ := List.mem_map.mp hk
    exact (h.storable hs b hb).1
  · intro k i hi
    rw [firstOccurrence_find?] at hi
    split at hi
    · rename_i hk
      cases hi
      have hlt := List.idxOf_lt_length_of_mem hk
      omega
    · cases hi
  · intro k i hi
    obtain ⟨padded, hperm, haligned⟩ := h.aligned
    have hle := haligned.bounded k i hi
    rw [← hperm.length_eq] at hle
    omega

theorem Sorted.documents_storable (h : Sorted memory sorted count)
    (hs : ∀ b ∈ memory, Storable b.1 ∧ Storable (documentCodec.serialize b.2)) :
    ∀ d ∈ sorted.map Prod.snd, Storable (documentCodec.serialize d) := by
  intro d hd
  obtain ⟨b, hb, rfl⟩ := List.mem_map.mp hd
  exact (h.storable hs b hb).2

theorem empty_storable : Storable (documentCodec.serialize ⟨0, []⟩) :=
  Short.storable ⟨by decide, by decide, by simp⟩

theorem Idle.nodeCount {nodes : List Node} {c : Client} (h : Idle codec nodes c V) (k : ℤ) :
    Idle codec nodes { c with nodeCount := k } V :=
  ⟨h.shows'.congr rfl rfl rfl, h.carries, h.rootId, h.support, h.nothing_cached, h.readCount,
    h.writeCount⟩

theorem adjInsert_returns (hsorted : Sorted memory sorted count) (insertPad : ℤ → ℤ)
    (hidle : Idle codec [] s.client V) (hstart : s.client.nodeCount = 1)
    (hkey : 16 ≤ p.secretKey.length) (hks : s.adjOramAccessControllers = [])
    (hnew : ∀ i, Serves (p.newController mapKey i) fun _ => none)
    (halpha : p.alpha ≤ baseOf p.log sorted.length) (hlen : sorted.length < 2 ^ 31)
    (hs : ∀ b ∈ memory, Storable b.1 ∧ Storable (documentCodec.serialize b.2))
    (hf : sorted.length < fuel) (hsize : s.memorySize = sorted.length) :
    Returns (adjInsert p codec fuel insertPad sorted (firstOccurrence sorted) count mapKey) s
      fun _ s' => Serving p codec fuel sorted count s' := by
  refine (makeNodes_returns (firstOccurrence_isSome sorted) hsorted.counted).bind ?_
  intro nodes _ hpost
  obtain ⟨hindexes, k, rfl⟩ := hpost
  rw [hstart] at hindexes
  have hnodes := hindexes.length_eq
  have hins := hsorted.insertable hindexes hlen hs
  have hinsert : Returns (insertNodes codec fuel insertPad nodes)
      { s.client with nodeCount := k } fun _ c => ∃ V', Idle codec ([] ++ nodes) c V' :=
    insertNodes_returns (Idle.nodeCount hidle k) (by simpa using hins)
      (by simpa [hnodes] using hf.le) insertPad
  refine (onClient_returns (s := { s with client := { s.client with nodeCount := k } })
    hinsert).bind ?_
  intro _ _ hpost
  obtain ⟨c, ⟨V', hdone⟩, rfl⟩ := hpost
  have hdocs : (sorted.map Prod.snd).length = sorted.length := List.length_map _
  have hinit : Returns (adjOramInit p mapKey (sorted.map Prod.snd)) s.adjOramAccessControllers
      fun _ ks => Holds p ks (sorted.map Prod.snd) := by
    rw [hks]
    exact adjOramInit_returns hkey hnew (by rwa [hdocs])
      (by rw [hdocs]; exact baseOf_le_of_lt p.log hlen) empty_storable
      (hsorted.documents_storable hs)
  refine (onSubOrams_returns (s := { s with client := c }) hinit).imp ?_
  intro _ _ hpost
  obtain ⟨ks, hholds, rfl⟩ := hpost
  exact ⟨⟨nodes, V', hdone, hins, by rwa [hnodes], hindexes⟩, hholds, hsize⟩

theorem subscripts_returns {iw cntw : ℕ} (h : iw + cntw < 2 ^ 31) :
    Returns (subscripts (indexValue iw cntw)) s fun l s' =>
      l = List.range' iw (cntw + 1) ∧ s' = s := by
  have hiw : iw % 2 ^ 32 = iw := Nat.mod_eq_of_lt (by omega)
  have hcntw : cntw % 2 ^ 32 = cntw := Nat.mod_eq_of_lt (by omega)
  have hsum : (iw + cntw) % 2 ^ 32 = iw + cntw := Nat.mod_eq_of_lt (by omega)
  have hn : iterations iw (iw + cntw) = some (cntw + 1) := by
    rw [iterations, if_neg (by omega), Option.some.injEq]
    omega
  rw [subscripts, split_indexValue]
  refine (orThrow_returns (show _ = some (toDecimal iw) from rfl)).bind ?_
  intro _ s hpost
  obtain ⟨rfl, rfl⟩ := hpost
  refine (orThrow_returns (stoul_toDecimal (by omega))).bind ?_
  intro _ s hpost
  obtain ⟨rfl, rfl⟩ := hpost
  refine (orThrow_returns (show _ = some (toDecimal cntw) from rfl)).bind ?_
  intro _ s hpost
  obtain ⟨rfl, rfl⟩ := hpost
  refine (orThrow_returns (stoul_toDecimal (by omega))).bind ?_
  intro cntw s hpost
  obtain ⟨rfl, rfl⟩ := hpost
  rw [hiw, hcntw, hsum]
  refine (orThrow_returns hn).bind ?_
  intro _ s hpost
  obtain ⟨rfl, rfl⟩ := hpost
  exact returns_pure ⟨rfl, rfl⟩

theorem readSubscripts_returns (h : Serving p codec fuel sorted count s) {l : List ℕ}
    (hl : ∀ i ∈ l, i < sorted.length) {size : ℕ} (hsize : size = sorted.length) :
    Returns (readSubscripts p size l) s fun reads s' =>
      Serving p codec fuel sorted count s' ∧ reads.map Prod.fst = l ∧
        ∀ r ∈ reads, (sorted[r.1]?).map Prod.snd = some r.2 := by
  subst hsize
  induction l generalizing s with
  | nil => exact returns_pure ⟨h, rfl, by simp⟩
  | cons i l ih =>
    have hi := hl i List.mem_cons_self
    have hdoc : (sorted.map Prod.snd)[i]? = some sorted[i].2 := by simp [hi]
    have hread : Returns (readSubscript p sorted.length i) s.adjOramAccessControllers
        fun d ks => d = sorted[i].2 ∧ Holds p ks (sorted.map Prod.snd) := by
      have hreturns := readSubscript_returns h.documents hdoc
      rwa [List.length_map] at hreturns
    refine (onSubOrams_returns hread).bind ?_
    intro _ _ hpost
    obtain ⟨ks, ⟨rfl, hks⟩, rfl⟩ := hpost
    have hserving : Serving p codec fuel sorted count { s with adjOramAccessControllers := ks } :=
      ⟨h.client, hks, h.memorySize⟩
    refine (ih hserving fun j hj => hl j (List.mem_cons_of_mem _ hj)).bind ?_
    intro reads s' hpost
    obtain ⟨hserving, hfst, hreads⟩ := hpost
    refine returns_pure ⟨hserving, by rw [List.map_cons, hfst], ?_⟩
    intro r hr
    rcases List.mem_cons.mp hr with rfl | hr
    · simp [hi]
    · exact hreads r hr

theorem Indexes.firstData_eq {nodes : List Node} {start : ℤ} {c : ℕ}
    (h : Indexes (firstOccurrence sorted) count sorted start nodes)
    (horder : (keys sorted).Pairwise (· ≤ ·)) (hin : w ∈ keys sorted)
    (hc : count.find? w = some c) :
    firstData nodes w = some (indexValue (rank w (keys sorted)) c) := by
  have hkey : w ∈ nodes.map Node.key := by rwa [h.key]
  obtain ⟨n₀, hn₀, hw₀⟩ := List.mem_map.mp hkey
  rw [firstData]
  cases hfind : nodes.find? fun n => n.key = w with
  | none => exact absurd hw₀ (by simpa using List.find?_eq_none.mp hfind n₀ hn₀)
  | some n =>
    have hn : n.key = w := by simpa using List.find?_some hfind
    obtain ⟨iw, cntw, hiw, hcntw, hvalue⟩ := h.indexed n (List.mem_of_find?_eq_some hfind)
    rw [hn] at hiw hcntw
    rw [firstOccurrence_find?, if_pos hin, Option.some.injEq, idxOf_eq_rank horder hin] at hiw
    rw [hc, Option.some.injEq] at hcntw
    rw [Option.map_some, hvalue, hiw, hcntw]

theorem sorted_getElem? (horder : (keys sorted).Pairwise (· ≤ ·)) {i : ℕ} {d : Document}
    (hi : i ∈ List.range' (rank w (keys sorted)) ((keys sorted).count w))
    (hread : (sorted[i]?).map Prod.snd = some d) : sorted[i]? = some (w, d) := by
  rw [List.mem_range'_1] at hi
  obtain ⟨b, hb, rfl⟩ := Option.map_eq_some_iff.mp hread
  obtain ⟨hlt, rfl⟩ := List.getElem?_eq_some_iff.mp hb
  have hin : i < (keys sorted).length := by rwa [keys, List.length_map]
  have hat : (keys sorted)[i] = w := (getElem_eq_iff horder hin).mpr hi
  simp only [keys, List.getElem_map] at hat
  rw [hb, Option.some.injEq]
  exact Prod.ext hat rfl

theorem searchReads_returns (h : Serving p codec fuel sorted count s)
    (hsorted : Sorted memory sorted count) (hlen : sorted.length < 2 ^ 31) (findPad : ℤ → ℤ)
    (hw : w ∈ keys memory) :
    Returns (searchReads p codec fuel findPad w) s fun reads s' =>
      Serving p codec fuel sorted count s' ∧ ∃ n, reads.map Prod.fst =
        List.range' (rank w (keys sorted)) n ∧ n = (keys sorted).count w ∧
        ∀ r ∈ reads, sorted[r.1]? = some (w, r.2) := by
  obtain ⟨nodes, V, hidle, hins, hf, hindexes⟩ := h.client
  obtain ⟨padded, hperm, haligned⟩ := hsorted.aligned
  obtain ⟨c, hc, hblock⟩ := haligned.extra w hw
  have hcount : (keys sorted).count w = c + 1 := by
    rw [← hblock]
    exact (hperm.map Prod.fst).count_eq w
  have hin : w ∈ keys sorted := List.count_pos_iff.mp (by omega)
  have hlength : (keys sorted).length = sorted.length := List.length_map _
  have hend := rank_add_count_le w (keys sorted)
  rw [hcount, hlength] at hend
  have hdata := hindexes.firstData_eq hsorted.order hin hc
  refine (onClient_returns (find_returns hidle hins hf findPad w)).bind ?_
  intro answer _ hpost
  obtain ⟨c₁, ⟨hfinds, ⟨V₁, hidle₁⟩, _⟩, rfl⟩ := hpost
  rw [hdata] at hfinds
  obtain ⟨n, rfl, _, hn⟩ := hfinds
  have hserving : Serving p codec fuel sorted count { s with client := c₁ } :=
    ⟨⟨nodes, V₁, hidle₁, hins, hf, hindexes⟩, h.documents, h.memorySize⟩
  simp only [hn]
  refine (subscripts_returns (by omega)).bind ?_
  intro _ _ hpost
  obtain ⟨rfl, rfl⟩ := hpost
  refine returns_get.bind ?_
  intro _ _ hpost
  obtain ⟨rfl, rfl⟩ := hpost
  have hrange : ∀ i ∈ List.range' (rank w (keys sorted)) (c + 1), i < sorted.length := by
    intro i hi
    rw [List.mem_range'_1] at hi
    omega
  refine (readSubscripts_returns hserving hrange h.memorySize).imp ?_
  intro reads s' hpost
  obtain ⟨hserving', hfst, hreads⟩ := hpost
  refine ⟨hserving', c + 1, hfst, hcount.symm, ?_⟩
  intro r hr
  have hmem : r.1 ∈ List.range' (rank w (keys sorted)) (c + 1) := hfst ▸ List.mem_map_of_mem hr
  exact sorted_getElem? hsorted.order (hcount ▸ hmem) (hreads r hr)

theorem reads_eq_filter (horder : (keys sorted).Pairwise (· ≤ ·)) {reads : List (ℕ × Document)}
    (hfst : reads.map Prod.fst =
      List.range' (rank w (keys sorted)) ((keys sorted).count w))
    (hreads : ∀ r ∈ reads, sorted[r.1]? = some (w, r.2)) :
    reads.map (fun r => (w, r.2)) = sorted.filter fun b => b.1 = w := by
  have hblock : sorted.filter (fun b => b.1 = w) =
      (sorted.drop (rank w (keys sorted))).take ((keys sorted).count w) := by
    apply filter_eq_block
    intro i hi
    have hlt : i < (keys sorted).length := by rwa [keys, List.length_map]
    have hat : (keys sorted)[i] = sorted[i].1 := List.getElem_map ..
    rw [← hat]
    exact getElem_eq_iff horder hlt
  rw [hblock]
  apply List.ext_getElem?
  intro k
  have hk : (reads.map Prod.fst)[k]? =
      (List.range' (rank w (keys sorted)) ((keys sorted).count w))[k]? := by rw [hfst]
  rw [List.getElem?_map] at hk
  rw [List.getElem?_map, List.getElem?_take, List.getElem?_drop]
  by_cases hlt : k < (keys sorted).count w
  · rw [List.getElem?_range' hlt, Option.map_eq_some_iff] at hk
    obtain ⟨r, hr, hsub⟩ := hk
    rw [one_mul] at hsub
    rw [if_pos hlt, hr, ← hsub, hreads r (List.mem_of_getElem? hr)]
    rfl
  · have hlong : (List.range' (rank w (keys sorted)) ((keys sorted).count w)).length ≤ k := by
      rw [List.length_range']
      omega
    rw [List.getElem?_eq_none hlong, Option.map_eq_none_iff] at hk
    rw [if_neg hlt, hk]
    rfl

theorem search_of_reads {findPad : ℤ → ℤ} {reads : List (ℕ × Document)} {s₁ : Index}
    (hrun : (searchReads p codec fuel findPad w).run s = .ok reads s₁)
    (hblock : reads.map (fun r => (w, r.2)) = sorted.filter fun b => b.1 = w)
    (hsize : s₁.memorySize = sorted.length) :
    (search p codec fuel findPad w).run s = .ok (((sorted.filter fun b => b.1 = w).map
      Prod.snd).filter fun doc => doc.id < sorted.length) s₁ := by
  have hdocs : reads.map Prod.snd = (sorted.filter fun b => b.1 = w).map Prod.snd := by
    rw [← hblock, List.map_map]
    rfl
  rw [search, run_bind_ok hrun, run_bind_ok (run_get s₁), run_pure, hdocs, hsize]

/-- The pairs of a keyword that were there before the padding are among those that a search
reads, and none is taken for a dummy. -/
theorem originals_subperm (hsorted : Sorted memory sorted count)
    (hids : ∀ b ∈ memory, b.2.id < memory.length) :
    ((memory.filter fun b => b.1 = w).map Prod.snd).Subperm
      (((sorted.filter fun b => b.1 = w).map Prod.snd).filter fun doc =>
        doc.id < sorted.length) := by
  obtain ⟨padded, hperm, haligned⟩ := hsorted.aligned
  obtain ⟨added, rfl, _⟩ := haligned.added
  have hlen : memory.length ≤ sorted.length := by
    rw [hperm.length_eq, List.length_append]
    exact Nat.le_add_right _ _
  have hsub : memory.Subperm sorted :=
    (List.sublist_append_left memory added).subperm.trans hperm.symm.subperm
  obtain ⟨l, hl, hin⟩ := hsub.filter fun b : Str × Document => decide (b.1 = w)
  have hmap : ((memory.filter fun b => b.1 = w).map Prod.snd).Subperm
      ((sorted.filter fun b => b.1 = w).map Prod.snd) :=
    ⟨l.map Prod.snd, hl.map Prod.snd, hin.map Prod.snd⟩
  have hfilter := hmap.filter fun doc => decide (doc.id < sorted.length)
  rwa [List.filter_eq_self.mpr] at hfilter
  intro d hd
  obtain ⟨b, hb, rfl⟩ := List.mem_map.mp hd
  have hlt := hids b (List.mem_filter.mp hb).1
  simpa using hlt.trans_le hlen

section Load

variable {bucketSize blockNumber : ℕ} {storage : Storage} {randGen : RandomForOram} {o : Oram}

theorem load_run (codec : Codec Node) (insertPad : ℤ → ℤ) (sort : KeySort) (e : Entropy)
    (hx : 2 ≤ x) (hsize : x * keywordSizes p.log x memory + 1 < 2 ^ 31)
    (hs : ∀ k, storage.fails k = false)
    (hbuild : construct.run (blank bucketSize blockNumber storage randGen) = .ok ⟨⟩ o)
    (order : HashOrder) (hkey : 16 ≤ p.secretKey.length) (fuel : ℕ) (mapKey : Str) :
    ∃ r c V, adjPadding p.log x p.secretKey memory (countTable memory) e = some r ∧
      Sorted memory (sort.sort r.1.memory) r.2 ∧
      (sort.sort r.1.memory).length = x * keywordSizes p.log x memory + 1 ∧
      (initDummyData codec).run (Client.fresh p.secretKey order o) = .ok ⟨⟩ c ∧
      Idle codec [] c V ∧ c.nodeCount = 1 ∧
      (do
        onClient (initDummyData codec)
        loadMemory p codec fuel insertPad sort x e mapKey memory).run
          ⟨Client.fresh p.secretKey order o, [], 0⟩ =
        (adjInsert p codec fuel insertPad (sort.sort r.1.memory)
          (firstOccurrence (sort.sort r.1.memory)) r.2 mapKey).run
            ⟨c, [], (sort.sort r.1.memory).length⟩ := by
  obtain ⟨r, hr⟩ : ∃ r, adjPadding p.log x p.secretKey memory (countTable memory) e = some r :=
    adjPadding_total hx hsize e
  have hlen : (sort.sort r.1.memory).length = x * keywordSizes p.log x memory + 1 := by
    rw [(sort.perm _).length_eq, adjPadding_length hx hr]
  have hsorted : Sorted memory (sort.sort r.1.memory) r.2 :=
    ⟨sort.sorted _, r.1.memory, sort.perm _, adjPadding_aligned hx hr⟩
  obtain ⟨⟨⟩, c, hrun, ⟨V, hidle⟩, hstart⟩ : Returns (initDummyData codec)
      (Client.fresh p.secretKey order o) fun _ c => (∃ V, Idle codec [] c V) ∧ c.nodeCount = 1 :=
    fresh_idle hs hbuild order hkey
  obtain ⟨_, s, hclient, c', ⟨hc, rfl⟩⟩ :=
    onClient_returns (s := ⟨Client.fresh p.secretKey order o, [], 0⟩)
      (show Returns (initDummyData codec) _ fun _ c' => c' = c from ⟨⟨⟩, c, hrun, rfl⟩)
  subst hc
  refine ⟨r, c', V, hr, hsorted, hlen, hrun, hidle, hstart, ?_⟩
  have hpad : (orThrow .endlessLoop (adjPadding p.log x p.secretKey memory (countTable memory) e) :
      IndexM (Padded × Dict Str ℕ)).run ⟨c', [], 0⟩ = .ok r ⟨c', [], 0⟩ := by
    rw [hr]
    rfl
  rw [run_bind_ok hclient, loadMemory, run_bind_ok hpad]
  rfl

theorem load_returns (codec : Codec Node) (insertPad : ℤ → ℤ) (sort : KeySort) (e : Entropy)
    (hx : 2 ≤ x) (hsize : x * keywordSizes p.log x memory + 1 < 2 ^ 31)
    (halpha : p.alpha ≤ baseOf p.log (x * keywordSizes p.log x memory + 1))
    (hstorable : ∀ b ∈ memory, Storable b.1 ∧ Storable (documentCodec.serialize b.2))
    (hs : ∀ k, storage.fails k = false)
    (hbuild : construct.run (blank bucketSize blockNumber storage randGen) = .ok ⟨⟩ o)
    (order : HashOrder) (hkey : 16 ≤ p.secretKey.length)
    (hnew : ∀ i, Serves (p.newController mapKey i) fun _ => none)
    (hf : x * keywordSizes p.log x memory + 1 < fuel) :
    ∃ r, adjPadding p.log x p.secretKey memory (countTable memory) e = some r ∧
      Sorted memory (sort.sort r.1.memory) r.2 ∧
      (sort.sort r.1.memory).length = x * keywordSizes p.log x memory + 1 ∧
      Returns (do
        onClient (initDummyData codec)
        loadMemory p codec fuel insertPad sort x e mapKey memory)
        ⟨Client.fresh p.secretKey order o, [], 0⟩ fun _ s' =>
          Serving p codec fuel (sort.sort r.1.memory) r.2 s' := by
  obtain ⟨r, c, V, hr, hsorted, hlen, _, hidle, hstart, hload⟩ :=
    load_run codec insertPad sort e hx hsize hs hbuild order hkey fuel mapKey
  refine ⟨r, hr, hsorted, hlen, ?_⟩
  obtain ⟨⟨⟩, s, hrun, hserving⟩ := adjInsert_returns (s := ⟨c, [], _⟩) hsorted insertPad hidle
    hstart hkey rfl hnew (by rwa [hlen]) (by rwa [hlen]) hstorable (by rwa [hlen]) rfl
  exact ⟨⟨⟩, s, hload.trans hrun, hserving⟩

/-- A search for a keyword reads the subscripts of its entries in the sorted memory, each once,
and answers with the documents of the keyword and no others. -/
theorem search_complete (codec : Codec Node) (insertPad findPad : ℤ → ℤ) (sort : KeySort)
    (e : Entropy) (hx : 2 ≤ x) (hids : ∀ b ∈ memory, b.2.id < memory.length)
    (hsize : x * keywordSizes p.log x memory + 1 < 2 ^ 31)
    (halpha : p.alpha ≤ baseOf p.log (x * keywordSizes p.log x memory + 1))
    (hstorable : ∀ b ∈ memory, Storable b.1 ∧ Storable (documentCodec.serialize b.2))
    (hs : ∀ k, storage.fails k = false)
    (hbuild : construct.run (blank bucketSize blockNumber storage randGen) = .ok ⟨⟩ o)
    (order : HashOrder) (hkey : 16 ≤ p.secretKey.length)
    (hnew : ∀ i, Serves (p.newController mapKey i) fun _ => none)
    (hf : x * keywordSizes p.log x memory + 1 < fuel) :
    ∃ padded count s, adjPadding p.log x p.secretKey memory (countTable memory) e =
        some (padded, count) ∧
      (do
        onClient (initDummyData codec)
        loadMemory p codec fuel insertPad sort x e mapKey memory).run
          ⟨Client.fresh p.secretKey order o, [], 0⟩ = .ok ⟨⟩ s ∧
      ∀ w ∈ keys memory, ∃ reads s₁ answer s₂ first n,
        (searchReads p codec fuel findPad w).run s = .ok reads s₁ ∧
        (search p codec fuel findPad w).run s = .ok answer s₂ ∧
        reads.map Prod.fst = List.range' first n ∧
        first + n ≤ (prp p s.memorySize).length ∧
        (∀ i, i ∈ reads.map Prod.fst ↔ ∃ d, (sort.sort padded.memory)[i]? = some (w, d)) ∧
        ((memory.filter fun b => b.1 = w).map Prod.snd).Subperm answer ∧
        ∀ d ∈ answer, (w, d) ∈ padded.memory := by
  obtain ⟨⟨padded, count⟩, hr, hsorted, hlen, ⟨⟩, s, hrun, hserving⟩ :=
    load_returns codec insertPad sort e hx hsize halpha hstorable hs hbuild order hkey hnew hf
  refine ⟨padded, count, s, hr, hrun, ?_⟩
  intro w hw
  simp only at hlen hserving hsorted
  obtain ⟨reads, s₁, hreadsRun, hserving₁, n, hfst, rfl, hreads⟩ :=
    searchReads_returns hserving hsorted (by omega) findPad hw
  have hblock := reads_eq_filter hsorted.order hfst hreads
  have hanswer : (search p codec fuel findPad w).run s = .ok
      (((sort.sort padded.memory).filter fun b => b.1 = w).map Prod.snd |>.filter fun doc =>
        doc.id < (sort.sort padded.memory).length) s₁ :=
    search_of_reads hreadsRun hblock hserving₁.memorySize
  refine ⟨reads, s₁, _, s₁, _, _, hreadsRun, hanswer, hfst, ?_, ?_,
    originals_subperm hsorted hids, ?_⟩
  · rw [hserving.memorySize, prp, pseudoRandomPermutation_length]
    have hend := rank_add_count_le w (keys (sort.sort padded.memory))
    have hlength : (keys (sort.sort padded.memory)).length = (sort.sort padded.memory).length :=
      List.length_map _
    have hbase := le_two_pow_baseOf p.log (sort.sort padded.memory).length
    omega
  · intro i
    constructor
    · intro hi
      obtain ⟨r, hr, rfl⟩ := List.mem_map.mp hi
      exact ⟨r.2, hreads r hr⟩
    · rintro ⟨d, hd⟩
      have hlt : i < (keys (sort.sort padded.memory)).length := by
        rw [keys, List.length_map]
        exact (List.getElem?_eq_some_iff.mp hd).1
      have hat : (keys (sort.sort padded.memory))[i] = w := by
        have hmap : (keys (sort.sort padded.memory))[i]? = some w := by
          rw [keys, List.getElem?_map, hd]
          rfl
        exact (List.getElem?_eq_some_iff.mp hmap).2
      rw [hfst, List.mem_range'_1]
      exact (getElem_eq_iff hsorted.order hlt).mp hat
  · intro d hd
    obtain ⟨b, hb, rfl⟩ := List.mem_map.mp (List.mem_filter.mp hd).1
    have hmem := List.mem_filter.mp hb
    have hkey : b.1 = w := by simpa using hmem.2
    rw [← hkey]
    exact (sort.perm _).subset hmem.1

end Load

def KeySort.stable : KeySort where
  sort m := m.mergeSort fun a b => a.1 ≤ b.1
  perm m := List.mergeSort_perm m _
  sorted m := by
    have hsorted : (m.mergeSort fun a b => a.1 ≤ b.1).Pairwise fun a b =>
        decide (a.1 ≤ b.1) = true := by
      apply List.pairwise_mergeSort
      · intro a b c hab hbc
        simp only [decide_eq_true_eq] at hab hbc ⊢
        exact hab.trans hbc
      · intro a b
        simpa using le_total a.1 b.1
    exact List.pairwise_map.mpr (hsorted.imp fun h => by simpa using h)

def sampleSetup (o : Oram) : Setup := ⟨1, .ideal, sampleKey, fun _ k => k, fun _ _ => ⟨o, 0⟩⟩

def onePair : Memory := [([97], ⟨0, []⟩)]

theorem search_complete_one_pair :
    ∃ (o : Oram) (s : Index), construct.run (blank 1 2 .new ⟨0, fun k => k, 0⟩) = .ok ⟨⟩ o ∧
      (do
        onClient (initDummyData ObjectArchive.nodeCodec)
        loadMemory (sampleSetup o) ObjectArchive.nodeCodec 6 id .stable 2
          ⟨fun k => k, 0, fun k => k, 0⟩ [] onePair).run
          ⟨Client.fresh sampleKey .newestFirst o, [], 0⟩ = .ok ⟨⟩ s ∧
      ∃ answer s', (search (sampleSetup o) ObjectArchive.nodeCodec 6 id [97]).run s =
        .ok answer s' ∧ ⟨0, []⟩ ∈ answer := by
  obtain ⟨o, hbuild⟩ := construct_small
  have hserves := serves_construct (fun _ => rfl) hbuild
  have hsize : 2 * keywordSizes .ideal 2 onePair + 1 = 5 := by decide +kernel
  have hids : ∀ b ∈ onePair, b.2.id < onePair.length := by decide
  have hstorable : ∀ b ∈ onePair, Storable b.1 ∧ Storable (documentCodec.serialize b.2) := by
    intro b hb
    rw [List.mem_singleton.mp hb]
    refine ⟨?_, Short.storable ⟨by decide, by decide, by simp⟩⟩
    rw [Storable, blockBytes]
    decide
  have hx : 2 ≤ 2 := le_rfl
  have hfits : 2 * keywordSizes .ideal 2 onePair + 1 < 2 ^ 31 := by rw [hsize]; decide
  have hfuel : 2 * keywordSizes .ideal 2 onePair + 1 < 6 := by rw [hsize]; decide
  have halpha : (sampleSetup o).alpha ≤ baseOf .ideal (2 * keywordSizes .ideal 2 onePair + 1) := by
    rw [hsize]
    exact ((Nat.lt_clog_iff_pow_lt Nat.one_lt_two).mpr (by decide : 2 ^ 1 < 5)).le
  have hkey : 16 ≤ (sampleSetup o).secretKey.length := sampleKey_length
  obtain ⟨padded, count, s, _, hrun, hsearch⟩ := search_complete ObjectArchive.nodeCodec id id
    .stable ⟨fun k => k, 0, fun k => k, 0⟩ hx hids hfits halpha hstorable (fun _ => rfl) hbuild
    .newestFirst hkey (fun _ => hserves) hfuel
  refine ⟨o, s, hbuild, hrun, ?_⟩
  obtain ⟨_, _, answer, s', _, _, _, hanswer, _, _, _, hsub, _⟩ := hsearch [97] List.mem_cons_self
  exact ⟨answer, s', hanswer, hsub.subset List.mem_cons_self⟩

end KeywordIndex
