import SseSeal.OramTrace
import SseSeal.TapeCounting
import Mathlib.Data.Fin.VecNotation

/-! What the positions passed to the storage tell about the accesses. Each call of `access`
reveals a leaf that no call revealed before; `access_direct` never assigns a new leaf, so
it reveals the same leaf whenever it accesses the same node. -/
namespace OramOblivious

open Bytes Objects OramReadPathEviction PathTree OramAccess OramCalls CallTrace OramTrace
open TapeCounting

variable {numBlocks : ℕ}

/-- The leaves drawn by the constructor and then by a number of calls. -/
abbrev Tape (numBlocks draws : ℕ) := Fin (numBlocks + draws) → Fin (2 ^ Nat.clog 2 numBlocks)

def replay {n leaves : ℕ} (tape : Fin n → Fin leaves) : RandomForOram where
  bound := leaves
  rng k := if h : k < n then (tape ⟨k, h⟩ : ℕ) else 0
  used := 0

theorem leafAt_replay {n leaves : ℕ} (tape : Fin n → Fin leaves) (k : Fin n) :
    leafAt (replay tape) k = tape k := by
  have hlt : ((tape k : ℕ) : ℤ) < leaves := by exact_mod_cast (tape k).isLt
  have hmod : Int.tmod (tape k : ℕ) leaves = (tape k : ℕ) :=
    Int.tmod_eq_of_lt (by omega) hlt
  have hpos : ¬ ((tape k : ℕ) : ℤ) < 0 := by omega
  simp [leafAt, RandomForOram.leaf, replay, hmod, hpos]

def tapeTrace {draws : ℕ} (codec : Codec Node) (bucketSize : ℕ) (storage : Storage)
    (calls : List Call) (tape : Tape numBlocks draws) : List StorageCall :=
  trace codec bucketSize numBlocks storage (replay tape) calls

/-- The calls to the storage when call `t` reveals the entry `j t` of the tape. -/
def revealed {T draws : ℕ} (storage : Storage) (j : Fin T → Fin (numBlocks + draws))
    (tape : Tape numBlocks draws) : List StorageCall :=
  storage.calls ++ issued storage.fails storage.calls.length (initialCalls numBlocks ++
    (List.ofFn fun t => pathCalls (Nat.clog 2 numBlocks + 1) (tape (j t))).flatten)

theorem sources_length {source : ℕ → ℕ} {used : ℕ} {calls : List Call} :
    (sources source used calls).length = calls.length := by
  induction calls generalizing source used with
  | nil => rfl
  | cons c calls ih => simp [sources, ih]

theorem tapeTrace_eq {bucketSize draws : ℕ} {storage : Storage} {calls : List Call}
    (h : Admissible bucketSize numBlocks) (hc : ∀ c ∈ calls, c.index < numBlocks)
    (codec : Codec Node) {T : ℕ} {j : Fin T → Fin (numBlocks + draws)}
    (hj : sources (fun i => i) numBlocks calls = List.ofFn fun t => (j t : ℕ))
    (tape : Tape numBlocks draws) :
    tapeTrace codec bucketSize storage calls tape = revealed storage j tape := by
  have heq := trace_eq storage (replay tape) h hc codec
  have hsrc : (fun i => (replay tape).used + i) = fun i => i := funext Nat.zero_add
  have hused : (replay tape).used + numBlocks = numBlocks := Nat.zero_add _
  have hpaths : ((List.ofFn fun t => (j t : ℕ)).flatMap fun k =>
      pathCalls (Nat.clog 2 numBlocks + 1) (leafAt (replay tape) k)) =
      (List.ofFn fun t => pathCalls (Nat.clog 2 numBlocks + 1) (tape (j t))).flatten := by
    rw [List.flatMap_def, List.map_ofFn]
    congr 2
    ext1 t
    simp only [Function.comp_apply, leafAt_replay]
  rw [hsrc, hused, hj] at heq
  rw [tapeTrace, heq, revealed, ← hpaths]
  rfl

theorem exists_entries {M T : ℕ} {l : List ℕ} (hnodup : l.Nodup) (hlt : ∀ k ∈ l, k < M)
    (hT : l.length = T) :
    ∃ j : Fin T → Fin M, Function.Injective j ∧ l = List.ofFn fun t => (j t : ℕ) := by
  subst hT
  refine ⟨fun t => ⟨l[t], hlt _ (List.getElem_mem _)⟩, ?_, ?_⟩
  · intro s t h
    have hget : l[s] = l[t] := congrArg Fin.val h
    exact Fin.ext ((List.Nodup.getElem_inj_iff hnodup).mp hget)
  · exact List.ofFn_getElem.symm

structure Request where
  op : Operation
  index : ℕ
  data : Str

def Request.call (r : Request) : Call := .access r.op r.index r.data

theorem sources_index {source : ℕ → ℕ} {used : ℕ} {l m : List Request}
    (h : l.map Request.index = m.map Request.index) :
    sources source used (l.map Request.call) = sources source used (m.map Request.call) := by
  induction l generalizing m source used with
  | nil =>
    cases m with
    | nil => rfl
    | cons r m => cases h
  | cons r l ih =>
    cases m with
    | nil => cases h
    | cons q m =>
      obtain ⟨hi, hrest⟩ := List.cons.inj h
      simp only [List.map_cons, sources, Request.call, Call.index, nextSource, nextUsed, draws]
      rw [hi]
      exact congrArg _ (ih hrest)

structure Distinct (numBlocks : ℕ) (source : ℕ → ℕ) (used : ℕ) : Prop where
  injective : ∀ i < numBlocks, ∀ j < numBlocks, source i = source j → i = j
  drawn : ∀ i < numBlocks, source i < used

theorem Distinct.next {source : ℕ → ℕ} {used : ℕ} (h : Distinct numBlocks source used) (i : ℕ) :
    Distinct numBlocks (Function.update source i used) (used + 1) := by
  have hother : ∀ k < numBlocks, k ≠ i → Function.update source i used k = source k :=
    fun k _ hk => Function.update_of_ne hk _ _
  constructor
  · intro a ha b hb hab
    by_cases hai : a = i
    · by_cases hbi : b = i
      · exact hai.trans hbi.symm
      · rw [hai, Function.update_self, hother b hb hbi] at hab
        exact absurd hab (h.drawn b hb).ne'
    · by_cases hbi : b = i
      · rw [hbi, Function.update_self, hother a ha hai] at hab
        exact absurd hab (h.drawn a ha).ne
      · rw [hother a ha hai, hother b hb hbi] at hab
        exact h.injective a ha b hb hab
  · intro k hk
    by_cases hki : k = i
    · rw [hki, Function.update_self]
      exact Nat.lt_succ_self _
    · rw [hother k hk hki]
      exact (h.drawn k hk).trans (Nat.lt_succ_self _)

theorem sources_access {source : ℕ → ℕ} {used : ℕ} {l : List Request}
    (h : Distinct numBlocks source used) (hl : ∀ r ∈ l, r.index < numBlocks) :
    (sources source used (l.map Request.call)).Nodup ∧
      ∀ k ∈ sources source used (l.map Request.call),
        k < used + l.length ∧ ((∃ i < numBlocks, k = source i) ∨ used ≤ k) := by
  induction l generalizing source used with
  | nil => simp [sources]
  | cons r l ih =>
    have hr := hl r List.mem_cons_self
    obtain ⟨hnodup, hmem⟩ := ih (h.next r.index) fun q hq => hl q (List.mem_cons_of_mem _ hq)
    have hstep : sources source used ((r :: l).map Request.call) = source r.index ::
        sources (Function.update source r.index used) (used + 1) (l.map Request.call) := by
      simp [sources, Request.call, Call.index, nextSource, nextUsed, draws]
    rw [hstep]
    constructor
    · apply List.nodup_cons.mpr
      refine ⟨?_, hnodup⟩
      intro hin
      have hdrawn := h.drawn _ hr
      rcases (hmem _ hin).2 with ⟨i, hi, he⟩ | hge
      · by_cases hir : i = r.index
        · rw [hir, Function.update_self] at he
          omega
        · rw [Function.update_of_ne hir] at he
          exact hir (h.injective _ hr _ hi he).symm
      · omega
    · intro k hk
      rcases List.mem_cons.mp hk with rfl | hk
      · have hdrawn := h.drawn _ hr
        refine ⟨?_, Or.inl ⟨_, hr, rfl⟩⟩
        rw [List.length_cons]
        omega
      · obtain ⟨hlt, hfrom⟩ := hmem k hk
        refine ⟨?_, ?_⟩
        · rw [List.length_cons]
          omega
        rcases hfrom with ⟨i, hi, he⟩ | hge
        · by_cases hir : i = r.index
          · rw [hir, Function.update_self] at he
            exact Or.inr he.ge
          · rw [Function.update_of_ne hir] at he
            exact Or.inl ⟨i, hi, he⟩
        · exact Or.inr (by omega)

theorem access_entries {T : ℕ} {p : Fin T → Request} (hp : ∀ t, (p t).index < numBlocks) :
    ∃ j : Fin T → Fin (numBlocks + T), Function.Injective j ∧
      ∀ r : Fin T → Request, (∀ t, (r t).index = (p t).index) →
        sources (fun i => i) numBlocks ((List.ofFn r).map Request.call) =
          List.ofFn fun t => (j t : ℕ) := by
  have hstart : Distinct numBlocks (fun i => i) numBlocks :=
    ⟨fun _ _ _ _ h => h, fun _ h => h⟩
  have hl : ∀ r ∈ List.ofFn p, r.index < numBlocks := by
    intro r hr
    obtain ⟨t, rfl⟩ := List.mem_ofFn.mp hr
    exact hp t
  obtain ⟨hnodup, hmem⟩ := sources_access hstart hl
  have hlen : (sources (fun i => i) numBlocks ((List.ofFn p).map Request.call)).length = T := by
    simp [sources_length]
  have hlt : ∀ k ∈ sources (fun i => i) numBlocks ((List.ofFn p).map Request.call),
      k < numBlocks + T := by
    intro k hk
    have := (hmem k hk).1
    rwa [List.length_ofFn] at this
  obtain ⟨j, hj, hs⟩ := exists_entries hnodup hlt hlen
  refine ⟨j, hj, ?_⟩
  intro r hr
  rw [← hs]
  apply sources_index
  rw [List.map_ofFn, List.map_ofFn]
  congr 1
  exact funext hr

def accessTrace {T : ℕ} (codec : Codec Node) (bucketSize : ℕ) (storage : Storage)
    (p : Fin T → Request) (tape : Tape numBlocks T) : List StorageCall :=
  tapeTrace codec bucketSize storage ((List.ofFn p).map Request.call) tape

theorem accessTrace_eq {T bucketSize : ℕ} {storage : Storage} {r : Fin T → Request}
    (h : Admissible bucketSize numBlocks) (hr : ∀ t, (r t).index < numBlocks)
    (codec : Codec Node) {j : Fin T → Fin (numBlocks + T)}
    (hj : sources (fun i => i) numBlocks ((List.ofFn r).map Request.call) =
      List.ofFn fun t => (j t : ℕ)) (tape : Tape numBlocks T) :
    accessTrace codec bucketSize storage r tape = revealed storage j tape := by
  refine tapeTrace_eq h ?_ codec hj tape
  intro c hc
  obtain ⟨q, hq, rfl⟩ := List.mem_map.mp hc
  obtain ⟨t, rfl⟩ := List.mem_ofFn.mp hq
  exact hr t

/-- Two sequences of calls of `access` of one length are observed with the same probability
on every trace, and call `t` reveals an entry of the tape that the indices of the calls
determine and that no other call reveals. -/
theorem access_oblivious {T bucketSize : ℕ} (codec : Codec Node) (storage : Storage)
    (h : Admissible bucketSize numBlocks) {p q : Fin T → Request}
    (hp : ∀ t, (p t).index < numBlocks) (hq : ∀ t, (q t).index < numBlocks) :
    (∀ seen : List StorageCall,
      Fintype.card {tape : Tape numBlocks T //
          accessTrace codec bucketSize storage p tape = seen} =
        Fintype.card {tape : Tape numBlocks T //
          accessTrace codec bucketSize storage q tape = seen}) ∧
      ∃ j : Fin T → Fin (numBlocks + T), Function.Injective j ∧
        ∀ r : Fin T → Request, (∀ t, (r t).index = (p t).index) → ∀ tape : Tape numBlocks T,
          accessTrace codec bucketSize storage r tape = revealed storage j tape := by
  obtain ⟨j, hj, hjr⟩ := access_entries hp
  obtain ⟨k, hk, hkr⟩ := access_entries hq
  constructor
  · intro seen
    let observe : (Fin T → Fin (2 ^ Nat.clog 2 numBlocks)) → List StorageCall := fun leaves =>
      storage.calls ++ issued storage.fails storage.calls.length (initialCalls numBlocks ++
        (List.ofFn fun t => pathCalls (Nat.clog 2 numBlocks + 1) (leaves t)).flatten)
    have hpt : ∀ tape, accessTrace codec bucketSize storage p tape = observe (tape ∘ j) :=
      accessTrace_eq h hp codec (hjr p fun _ => rfl)
    have hqt : ∀ tape, accessTrace codec bucketSize storage q tape = observe (tape ∘ k) :=
      accessTrace_eq h hq codec (hkr q fun _ => rfl)
    simp only [hpt, hqt]
    exact card_observation observe seen hj hk
  · refine ⟨j, hj, ?_⟩
    intro r hr
    refine accessTrace_eq h ?_ codec (hjr r hr)
    intro t
    rw [hr t]
    exact hp t

theorem access_oblivious_pair :
    (∀ seen : List StorageCall,
      Fintype.card {tape : Tape 2 2 // accessTrace ObjectArchive.nodeCodec 1 .new
          ![⟨.write, 0, [97]⟩, ⟨.read, 0, []⟩] tape = seen} =
        Fintype.card {tape : Tape 2 2 // accessTrace ObjectArchive.nodeCodec 1 .new
          ![⟨.read, 1, []⟩, ⟨.read, 0, []⟩] tape = seen}) ∧
      ∃ j : Fin 2 → Fin (2 + 2), Function.Injective j ∧
        ∀ tape : Tape 2 2, accessTrace ObjectArchive.nodeCodec 1 .new
          ![⟨.write, 0, [97]⟩, ⟨.read, 0, []⟩] tape = revealed .new j tape := by
  obtain ⟨hcount, j, hj, htrace⟩ := access_oblivious ObjectArchive.nodeCodec .new
    (p := ![⟨.write, 0, [97]⟩, ⟨.read, 0, []⟩]) (q := ![⟨.read, 1, []⟩, ⟨.read, 0, []⟩])
    (by decide : Admissible 1 2) (by decide) (by decide)
  exact ⟨hcount, j, hj, htrace _ fun _ => rfl⟩

def directCalls (l : List (Operation × Node)) : List Call :=
  l.map fun p => .direct p.1 p.2

def drawCount (l : List (Operation × Node)) : ℕ := (directCalls l).countP fun c => draws c

/-- On every tape, each call of the run reveals an entry that no other call reveals. -/
def DistinctEntries (codec : Codec Node) (bucketSize numBlocks : ℕ) (storage : Storage)
    (l : List (Operation × Node)) : Prop :=
  ∃ j : Fin l.length → Fin (numBlocks + drawCount l), Function.Injective j ∧
    ∀ tape : Tape numBlocks (drawCount l),
      tapeTrace codec bucketSize storage (directCalls l) tape = revealed storage j tape

theorem sources_direct {source : ℕ → ℕ} {used : ℕ} {l : List (Operation × Node)} :
    sources source used (directCalls l) = l.map fun p => source (toUnsigned p.2.id) := by
  induction l generalizing used with
  | nil => rfl
  | cons p l ih => simpa [directCalls, sources, Call.index, nextSource] using ih

theorem pathCalls_length (levels leaf : ℕ) : (pathCalls levels leaf).length = 2 * levels := by
  simp [pathCalls, two_mul]

theorem pathCalls_injective {levels a b : ℕ} (hl : 0 < levels)
    (h : pathCalls levels a = pathCalls levels b) : a = b := by
  have hreads := (List.append_inj h (by simp)).1
  have hlast := List.map_inj_left.mp hreads (levels - 1) (List.mem_range.mpr (by omega))
  exact leaf_eq hl (StorageCall.read.inj hlast)

theorem leaves_of_paths {levels : ℕ} (hl : 0 < levels) {ks ms : List ℕ}
    (hlen : ks.length = ms.length)
    (h : ks.flatMap (pathCalls levels) = ms.flatMap (pathCalls levels)) : ks = ms := by
  induction ks generalizing ms with
  | nil => exact (List.length_eq_zero_iff.mp hlen.symm).symm
  | cons k ks ih =>
    cases ms with
    | nil => cases hlen
    | cons m ms =>
      rw [List.flatMap_cons, List.flatMap_cons] at h
      obtain ⟨hhead, htail⟩ := List.append_inj h (by simp [pathCalls_length])
      rw [pathCalls_injective hl hhead, ih (Nat.succ.inj hlen) htail]

section Direct

variable {bucketSize : ℕ} {storage : Storage} {l : List (Operation × Node)}

theorem toUnsigned_lt {i : ℤ} (hlow : 0 ≤ i) (hhigh : i < numBlocks)
    (hn : numBlocks < 2 ^ 32) : toUnsigned i < numBlocks ∧ (toUnsigned i : ℤ) = i := by
  rw [toUnsigned]
  omega

theorem blocks_lt (h : Admissible bucketSize numBlocks) : numBlocks < 2 ^ 32 :=
  h.2.2.trans_lt (Nat.mod_lt _ (by decide))

/-- The entry a direct access reveals: the one the constructor drew for the index. -/
theorem tapeTrace_direct (storage : Storage) (h : Admissible bucketSize numBlocks)
    (hl : ∀ p ∈ l, 0 ≤ p.2.id ∧ p.2.id < numBlocks) (codec : Codec Node) :
    ∃ j : Fin l.length → Fin (numBlocks + drawCount l),
      (∀ t, (j t : ℤ) = (l.get t).2.id) ∧ ∀ tape : Tape numBlocks (drawCount l),
        tapeTrace codec bucketSize storage (directCalls l) tape = revealed storage j tape := by
  have hid : ∀ t : Fin l.length, toUnsigned (l.get t).2.id < numBlocks ∧
      (toUnsigned (l.get t).2.id : ℤ) = (l.get t).2.id := by
    intro t
    obtain ⟨hlow, hhigh⟩ := hl _ (l.get_mem t)
    exact toUnsigned_lt hlow hhigh (blocks_lt h)
  refine ⟨fun t => ⟨toUnsigned (l.get t).2.id, (hid t).1.trans_le (Nat.le_add_right _ _)⟩,
    fun t => (hid t).2, ?_⟩
  apply tapeTrace_eq h
  · intro c hc
    obtain ⟨p, hp, rfl⟩ := List.mem_map.mp hc
    obtain ⟨hlow, hhigh⟩ := hl p hp
    exact (toUnsigned_lt hlow hhigh (blocks_lt h)).1
  · rw [sources_direct]
    exact List.ext_getElem (by simp) (by simp)

theorem revealed_leaves (hs : ∀ k, storage.fails k = false) {T draws : ℕ}
    {i j : Fin T → Fin (numBlocks + draws)} {tape : Tape numBlocks draws}
    (h : revealed storage i tape = revealed storage j tape) (t : Fin T) :
    tape (i t) = tape (j t) := by
  have hpaths : ∀ k : Fin T → Fin (numBlocks + draws),
      (List.ofFn fun t => pathCalls (Nat.clog 2 numBlocks + 1) (tape (k t))).flatten =
        (List.ofFn fun t => (tape (k t) : ℕ)).flatMap
          (pathCalls (Nat.clog 2 numBlocks + 1)) := by
    intro k
    rw [List.flatMap_def, List.map_ofFn]
    rfl
  rw [revealed, revealed, issued_of_succeed fun k _ => hs _, issued_of_succeed fun k _ => hs _,
    List.append_cancel_left_eq, List.append_cancel_left_eq, hpaths, hpaths] at h
  have hleaves := leaves_of_paths (Nat.succ_pos _) (by simp) h
  exact Fin.ext (congrFun (List.ofFn_injective hleaves) t)

theorem ids_nodup_iff {M : ℕ} {i : Fin l.length → Fin M}
    (hi : ∀ t, (i t : ℤ) = (l.get t).2.id) :
    (l.map fun p => p.2.id).Nodup ↔ Function.Injective i := by
  have hmap : (l.map fun p => p.2.id) = List.ofFn fun t => ((i t : ℕ) : ℤ) := by
    apply List.ext_getElem (by simp)
    intro n hn hn'
    have := hi ⟨n, by simpa using hn⟩
    simpa using this.symm
  rw [hmap, List.nodup_ofFn]
  constructor
  · intro h s t hst
    exact h (by simp [hst])
  · intro h s t hst
    exact h (Fin.ext (by simpa using hst))

/-- With one leaf all entries are equal, and there is one for each access. -/
theorem distinctEntries_one (codec : Codec Node) (h : Admissible bucketSize 1)
    (hl : ∀ p ∈ l, 0 ≤ p.2.id ∧ p.2.id < 1) : DistinctEntries codec bucketSize 1 storage l := by
  obtain ⟨i, _, htrace⟩ := tapeTrace_direct storage h hl codec
  have hdraw : drawCount l = l.length := by
    have hall : (directCalls l).countP (fun c => draws c) = (directCalls l).length := by
      apply List.countP_eq_length.mpr
      intro c hc
      obtain ⟨p, hp, rfl⟩ := List.mem_map.mp hc
      obtain ⟨hlow, hhigh⟩ := hl p hp
      have hzero : p.2.id = 0 := by omega
      simp [draws, hzero]
    simpa [drawCount, directCalls] using hall
  refine ⟨fun t => ⟨t, by omega⟩, ?_, ?_⟩
  · intro s t hst
    exact Fin.ext (by simpa using hst)
  · intro tape
    rw [htrace tape, revealed, revealed]
    have hone : ∀ a b : Fin (2 ^ Nat.clog 2 1), a = b := by decide
    congr 5
    ext1 t
    rw [hone (tape (i t))]

theorem ids_nodup_of_distinctEntries (codec : Codec Node) (hs : ∀ k, storage.fails k = false)
    (h : Admissible bucketSize numBlocks) (hl : ∀ p ∈ l, 0 ≤ p.2.id ∧ p.2.id < numBlocks)
    (htwo : 1 < numBlocks) (hd : DistinctEntries codec bucketSize numBlocks storage l) :
    (l.map fun p => p.2.id).Nodup := by
  obtain ⟨i, hi, htrace⟩ := tapeTrace_direct storage h hl codec
  obtain ⟨j, hj, hjt⟩ := hd
  have hleaves : 1 < 2 ^ Nat.clog 2 numBlocks :=
    Nat.one_lt_two_pow (Nat.clog_pos (by decide) htwo).ne'
  have hnontrivial : Nontrivial (Fin (2 ^ Nat.clog 2 numBlocks)) :=
    Fin.nontrivial_iff_two_le.mpr hleaves
  have hij : i = j := funext fun t =>
    entry_eq fun tape => revealed_leaves hs ((htrace tape).symm.trans (hjt tape)) t
  rw [ids_nodup_iff hi, hij]
  exact hj

/-- A run of direct accesses reveals no entry twice if and only if no id is accessed twice, or
there is one block only. -/
theorem distinctEntries_iff (codec : Codec Node) (hs : ∀ k, storage.fails k = false)
    (h : Admissible bucketSize numBlocks) (hl : ∀ p ∈ l, 0 ≤ p.2.id ∧ p.2.id < numBlocks) :
    DistinctEntries codec bucketSize numBlocks storage l ↔
      (l.map fun p => p.2.id).Nodup ∨ numBlocks = 1 := by
  constructor
  · intro hd
    by_cases hone : numBlocks = 1
    · exact Or.inr hone
    · have hzero := h.1
      exact Or.inl (ids_nodup_of_distinctEntries codec hs h hl (by omega) hd)
  · rintro (hnodup | hone)
    · obtain ⟨i, hi, htrace⟩ := tapeTrace_direct storage h hl codec
      exact ⟨i, (ids_nodup_iff hi).mp hnodup, htrace⟩
    · subst hone
      exact distinctEntries_one codec h hl

theorem distinctEntries_iff_two_reads :
    DistinctEntries ObjectArchive.nodeCodec 1 4 .new [(.read, .ofTag 1 (-1)), (.read, .ofTag 3 7)] ↔
      ([1, 3] : List ℤ).Nodup ∨ 4 = 1 :=
  distinctEntries_iff ObjectArchive.nodeCodec (fun _ => rfl) (by decide) (by decide)

/-- Two reads of one node reveal the same entry. -/
theorem reread_repeats_entry :
    ¬ DistinctEntries ObjectArchive.nodeCodec 1 4 .new
      [(.read, .ofTag 1 (-1)), (.read, .ofTag 1 (-1))] := by
  intro hd
  have hnodup := ids_nodup_of_distinctEntries ObjectArchive.nodeCodec (fun _ => rfl)
    (by decide) (by decide) (by decide) hd
  exact absurd hnodup (by decide)

end Direct

end OramOblivious
