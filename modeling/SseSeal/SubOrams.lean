import SseSeal.ObjectArchive
import SseSeal.OramAccessController
import SseSeal.StringCipher
import SseSeal.SubArrays

/-! The oblivious memories that hold the documents of an index, one for each sub-array. -/
namespace SubOrams

open Bytes Objects ObjectArchive StateExcept StringCipher OramAccessController SubArrays ComputedLog

inductive SubOramError where
  | access (e : AccessError)
  | cipher
  | malformed
  | undefinedBehaviour
  deriving DecidableEq, Repr

abbrev SubOramM := EStateM SubOramError (List Controller)

/-- What the client does not change after its construction, and the controllers that are made
for the arrays of an index. -/
structure Setup where
  alpha : ℕ
  log : CeilLog
  secretKey : Str
  randombytes : Randombytes
  newController : Str → ℕ → Controller

def onSubOram {α : Type} (i : ℕ) (x : ControllerM α) : SubOramM α := fun ks =>
  match ks[i]? with
  | none => .error .undefinedBehaviour ks
  | some k =>
    match x.run k with
    | .ok a k' => .ok a (ks.set i k')
    | .error e k' => .error (.access e) (ks.set i k')

def logged (x : SubOramM PUnit) : SubOramM PUnit := fun ks =>
  match x.run ks with
  | .error .undefinedBehaviour ks' => .error .undefinedBehaviour ks'
  | .error _ ks' => .ok ⟨⟩ ks'
  | .ok a ks' => .ok a ks'

section Operations

variable (p : Setup)

def writeArray (i : ℕ) : ℕ → List Document → SubOramM PUnit
  | _, [] => return ⟨⟩
  | j, doc :: array => do
    let data ← orThrow .cipher (encryptSm4Ebc (documentCodec.serialize doc) p.secretKey)
    let _ ← onSubOram i (obliviousAccess .write j data)
    writeArray i (j + 1) array

def initArrays (mapKey : Str) : ℕ → List (List Document) → SubOramM PUnit
  | _, [] => return ⟨⟩
  | i, array :: arrays => do
    modify fun ks => ks ++ [p.newController mapKey i]
    writeArray p i 0 array
    initArrays mapKey (i + 1) arrays

def adjOramInitHelper (mapKey : Str) (subArrays : List (List Document)) : SubOramM PUnit :=
  logged (initArrays p mapKey 0 subArrays)

def prp (valueSize : ℕ) : List ℕ :=
  pseudoRandomPermutation p.log p.randombytes valueSize p.secretKey

/-- `ceil(pow(2, base) / mu)`. -/
def arraySize (base mu : ℕ) : ℕ := (2 ^ base + mu - 1) / mu

/-- `adj_oram_init` on the documents of the memory; `adj_insert_range` does the same. -/
def adjOramInit (mapKey : Str) (documents : List Document) : SubOramM PUnit := do
  let mu := 2 ^ p.alpha
  let base := baseOf p.log documents.length
  let empty := List.replicate mu (List.replicate (arraySize base mu) ⟨0, []⟩)
  let subArrays ← orThrow .undefinedBehaviour
    (fill (slot (prp p documents.length) base p.alpha) 0 documents empty)
  adjOramInitHelper p mapKey subArrays

/-- The body of the loops of `search` and `search_range_helper`: the document of a subscript. -/
def readSubscript (size i : ℕ) : SubOramM Document := do
  let bits ← orThrow .undefinedBehaviour (slot (prp p size) (baseOf p.log size) p.alpha i)
  let res ← onSubOram bits.1 (obliviousAccess .read bits.2 [])
  let res ← orThrow .cipher (decryptSm4Ebc res p.secretKey)
  orThrow .malformed (documentCodec.deserialize res)

end Operations

def accessCount (ks : List Controller) : ℕ := (ks.map Controller.accesses).sum

theorem onSubOram_accesses {α : Type} {x : ControllerM α} {i : ℕ} {ks ks' : List Controller}
    {a : α} (hx : ∀ k k', x.run k = .ok a k' → k'.accesses = k.accesses + 1)
    (h : (onSubOram i x).run ks = .ok a ks') : accessCount ks' = accessCount ks + 1 := by
  change onSubOram i x ks = _ at h
  rw [onSubOram] at h
  split at h
  · cases h
  rename_i k hk
  split at h
  · rename_i k' hrun
    cases h
    obtain ⟨hlt, rfl⟩ := List.getElem?_eq_some_iff.mp hk
    have hsplit : ks = ks.take i ++ ks[i] :: ks.drop (i + 1) := by simp
    have hset : ks.set i k' = ks.take i ++ k' :: ks.drop (i + 1) := by
      rw [List.set_eq_take_append_cons_drop, if_pos hlt]
    have hcount := hx _ _ hrun
    rw [accessCount, accessCount, hset]
    conv_rhs => rw [hsplit]
    simp only [List.map_append, List.map_cons, List.sum_append, List.sum_cons, hcount]
    omega
  · cases h

theorem readSubscript_accesses {p : Setup} {size i : ℕ} {ks ks' : List Controller} {d : Document}
    (h : (readSubscript p size i).run ks = .ok d ks') :
    accessCount ks' = accessCount ks + 1 := by
  obtain ⟨bits, ks₀, hbits, hrest⟩ := bind_ok h
  obtain ⟨res, ks₁, hread, hrest⟩ := bind_ok hrest
  obtain ⟨plain, ks₂, hdec, hdoc⟩ := bind_ok hrest
  rw [(orThrow_ok hdoc).2, (orThrow_ok hdec).2, ← (orThrow_ok hbits).2]
  exact onSubOram_accesses (fun _ _ hrun => issue_accesses hrun) hread

variable {p : Setup} {mapKey : Str} {k : Controller} {ks : List Controller}
  {array done : List Document} {arrays : List (List Document)} {docs : List Document} {i j : ℕ}
  {d : Document}

def Keeps (p : Setup) (k : Controller) (array : List Document) : Prop :=
  ∃ m, Serves k m ∧ ∀ (j : ℕ) d, array[j]? = some d → ∃ s, m j = some s ∧
    decryptSm4Ebc s p.secretKey = some (documentCodec.serialize d)

/-- The sub-ORAMs hold the documents in the slots of their subscripts. -/
def Holds (p : Setup) (ks : List Controller) (docs : List Document) : Prop :=
  ∃ arrays, List.Forall₂ (Keeps p) ks arrays ∧ (∀ a ∈ arrays, a.length ≤ 2 ^ 31) ∧
    ∀ i d, docs[i]? = some d → ∃ s,
      slot (prp p docs.length) (baseOf p.log docs.length) p.alpha i = some s ∧
        getSlot arrays s = some d

theorem onSubOram_returns {α : Type} {x : ControllerM α} {post : α → Controller → Prop}
    (hk : ks[i]? = some k) (h : Returns x k post) :
    Returns (onSubOram i x) ks fun a ks' => ∃ k', post a k' ∧ ks' = ks.set i k' := by
  obtain ⟨a, k', hrun, ha⟩ := h
  refine ⟨a, ks.set i k', ?_, k', ha, rfl⟩
  change onSubOram i x ks = _
  simp only [onSubOram, hk, hrun]

theorem logged_returns {x : SubOramM PUnit} {post : PUnit → List Controller → Prop}
    (h : Returns x ks post) : Returns (logged x) ks post := by
  obtain ⟨a, ks', hrun, ha⟩ := h
  refine ⟨a, ks', ?_, ha⟩
  change logged x ks = _
  simp only [logged, hrun]

theorem writeArray_returns (hkey : 16 ≤ p.secretKey.length) (h : Keeps p k done)
    (hlen : done.length + array.length ≤ 2 ^ 31)
    (hs : ∀ d ∈ array, Storable (documentCodec.serialize d)) :
    Returns (writeArray p ks.length done.length array) (ks ++ [k]) fun _ ks' =>
      ∃ k', ks' = ks ++ [k'] ∧ Keeps p k' (done ++ array) := by
  induction array generalizing k done with
  | nil => exact returns_pure ⟨k, rfl, by rwa [List.append_nil]⟩
  | cons d array ih =>
    rw [List.length_cons] at hlen
    obtain ⟨data, henc, hdec⟩ := decrypt_encrypt hkey (hs d List.mem_cons_self)
    obtain ⟨m, hserves, hm⟩ := h
    refine (orThrow_returns henc).bind ?_
    intro _ _ hpost
    obtain ⟨rfl, rfl⟩ := hpost
    have hrange : (0 : ℤ) ≤ done.length ∧ (done.length : ℤ) < 2 ^ 31 := by omega
    have hlast : (ks ++ [k])[ks.length]? = some k := List.getElem?_concat_length
    refine (onSubOram_returns hlast (access_write_returns hserves hrange _)).bind ?_
    intro _ _ hpost
    obtain ⟨k₁, ⟨hserves₁, _⟩, rfl⟩ := hpost
    have hkeeps : Keeps p k₁ (done ++ [d]) := by
      refine ⟨_, hserves₁, ?_⟩
      intro j b hj
      by_cases heq : j = done.length
      · subst heq
        rw [List.getElem?_concat_length, Option.some.injEq] at hj
        subst hj
        exact ⟨_, Function.update_self .., hdec⟩
      · have hlt := (List.getElem?_eq_some_iff.mp hj).1
        rw [List.length_append, List.length_singleton] at hlt
        rw [List.getElem?_append_left (by omega)] at hj
        rw [Function.update_of_ne (by omega)]
        exact hm j b hj
    have hset : (ks ++ [k]).set ks.length k₁ = ks ++ [k₁] := by simp
    rw [hset]
    have hrest := ih hkeeps (by rw [List.length_append, List.length_singleton]; omega)
      fun b hb => hs b (List.mem_cons_of_mem _ hb)
    rwa [List.length_append, List.length_singleton, List.append_assoc] at hrest

theorem initArrays_returns (hkey : 16 ≤ p.secretKey.length)
    (hnew : ∀ i, Serves (p.newController mapKey i) fun _ => none)
    {pre : List (List Document)} (h : List.Forall₂ (Keeps p) ks pre)
    (hlen : ∀ a ∈ arrays, a.length ≤ 2 ^ 31)
    (hs : ∀ a ∈ arrays, ∀ d ∈ a, Storable (documentCodec.serialize d)) :
    Returns (initArrays p mapKey ks.length arrays) ks fun _ ks' =>
      List.Forall₂ (Keeps p) ks' (pre ++ arrays) := by
  induction arrays generalizing ks pre with
  | nil => exact returns_pure (by rwa [List.append_nil])
  | cons array arrays ih =>
    refine returns_modify.bind ?_
    intro _ _ hstep
    subst hstep
    have hfresh : Keeps p (p.newController mapKey ks.length) [] :=
      ⟨_, hnew _, fun _ _ hj => by simp at hj⟩
    have hlen₀ : ([] : List Document).length + array.length ≤ 2 ^ 31 := by
      simpa using hlen array List.mem_cons_self
    refine (writeArray_returns hkey hfresh hlen₀ (hs array List.mem_cons_self)).bind ?_
    intro _ _ hpost
    obtain ⟨k', rfl, hk'⟩ := hpost
    have hpre : List.Forall₂ (Keeps p) (ks ++ [k']) (pre ++ [array]) :=
      List.rel_append h (.cons hk' .nil)
    have hrest := ih hpre (fun a ha => hlen a (List.mem_cons_of_mem _ ha))
      fun a ha => hs a (List.mem_cons_of_mem _ ha)
    rwa [List.length_append, List.length_singleton, List.append_assoc] at hrest

theorem getSlot_replicate {mu size : ℕ} {s : ℕ × ℕ} (h₁ : s.1 < mu) (h₂ : s.2 < size) :
    getSlot (List.replicate mu (List.replicate size d)) s = some d := by
  simp [getSlot, h₁, h₂]

theorem two_pow_sub_le_arraySize {base alpha : ℕ} (h : alpha ≤ base) :
    arraySize base (2 ^ alpha) = 2 ^ (base - alpha) := by
  have hpos := Nat.two_pow_pos alpha
  rw [arraySize, ← Nat.sub_add_cancel h, Nat.pow_add, Nat.add_sub_assoc hpos, Nat.add_sub_cancel]
  apply Nat.div_eq_of_lt_le
  · omega
  · rw [Nat.succ_mul]
    omega

theorem fill_holds {α : Type} {slotOf : ℕ → Option (ℕ × ℕ)} {l : List α}
    {arrays arrays' : List (List α)} {P : α → Prop}
    (h : fill slotOf i l arrays = some arrays') (hl : ∀ b ∈ l, P b)
    (ha : ∀ a ∈ arrays, ∀ b ∈ a, P b) {n : ℕ} (hn : ∀ a ∈ arrays, a.length ≤ n) :
    (∀ a ∈ arrays', ∀ b ∈ a, P b) ∧ ∀ a ∈ arrays', a.length ≤ n := by
  induction l generalizing i arrays with
  | nil =>
    cases h
    exact ⟨ha, hn⟩
  | cons b l ih =>
    obtain ⟨s, _, h⟩ := Option.bind_eq_some_iff.mp h
    obtain ⟨arrays₁, hset, h⟩ := Option.bind_eq_some_iff.mp h
    obtain ⟨array, harray, hset⟩ := Option.bind_eq_some_iff.mp hset
    have hin := List.mem_of_getElem? harray
    split at hset
    · cases hset
      refine ih h (fun c hc => hl c (List.mem_cons_of_mem _ hc)) ?_ ?_
      · intro a hmem
        rcases List.mem_or_eq_of_mem_set hmem with hmem | rfl
        · exact ha a hmem
        · intro c hc
          rcases List.mem_or_eq_of_mem_set hc with hc | rfl
          · exact ha array hin c hc
          · exact hl c List.mem_cons_self
      · intro a hmem
        rcases List.mem_or_eq_of_mem_set hmem with hmem | rfl
        · exact hn a hmem
        · rw [List.length_set]
          exact hn array hin
    · cases hset

/-- The arrays that the fill loop of `adj_oram_init` makes. -/
def subArrays (p : Setup) (documents : List Document) : Option (List (List Document)) :=
  fill (slot (prp p documents.length) (baseOf p.log documents.length) p.alpha) 0 documents
    (List.replicate (2 ^ p.alpha)
      (List.replicate (arraySize (baseOf p.log documents.length) (2 ^ p.alpha)) ⟨0, []⟩))

theorem adjOramInit_eq (p : Setup) (mapKey : Str) (documents : List Document) :
    adjOramInit p mapKey documents = (do
      let arrays ← orThrow .undefinedBehaviour (subArrays p documents)
      adjOramInitHelper p mapKey arrays) := rfl

theorem subArrays_exists (halpha : p.alpha ≤ baseOf p.log docs.length) :
    ∃ arrays, subArrays p docs = some arrays ∧ ∀ (i : ℕ) d, docs[i]? = some d → ∃ s,
      slot (prp p docs.length) (baseOf p.log docs.length) p.alpha i = some s ∧
        getSlot arrays s = some d := by
  have hsize := two_pow_sub_le_arraySize halpha
  have hslot : ∀ j, 0 ≤ j → j < 0 + docs.length → ∃ s,
      slot (prp p docs.length) (baseOf p.log docs.length) p.alpha j = some s ∧
        (getSlot (List.replicate (2 ^ p.alpha) (List.replicate (arraySize
          (baseOf p.log docs.length) (2 ^ p.alpha)) (⟨0, []⟩ : Document))) s).isSome := by
    intro j _ hj
    obtain ⟨s, hslot, h₁, h₂⟩ := slot_exists p.randombytes p.secretKey halpha
      (hj.trans_eq (Nat.zero_add _))
    refine ⟨s, hslot, ?_⟩
    rw [getSlot_replicate h₁ (hsize ▸ h₂)]
    rfl
  obtain ⟨arrays, hfill, _, _, hread⟩ := fill_exists hslot
    fun j k s hj hsj hsk => slot_inj (hj.trans_eq (Nat.zero_add _)) hsj hsk
  refine ⟨arrays, hfill, ?_⟩
  intro i d hi
  have hlt := (List.getElem?_eq_some_iff.mp hi).1
  obtain ⟨s, hslot, _⟩ := slot_exists p.randombytes p.secretKey halpha hlt
  exact ⟨s, hslot, hread i d s hi (by rwa [Nat.zero_add])⟩

theorem fill_shape {α : Type} {slotOf : ℕ → Option (ℕ × ℕ)} {l : List α}
    {arrays arrays' : List (List α)} (h : fill slotOf i l arrays = some arrays') :
    arrays'.map List.length = arrays.map List.length := by
  induction l generalizing i arrays with
  | nil =>
    cases h
    rfl
  | cons b l ih =>
    obtain ⟨s, _, h⟩ := Option.bind_eq_some_iff.mp h
    obtain ⟨arrays₁, hset, h⟩ := Option.bind_eq_some_iff.mp h
    obtain ⟨array, harray, hset⟩ := Option.bind_eq_some_iff.mp hset
    split at hset
    · cases hset
      obtain ⟨hlt, rfl⟩ := List.getElem?_eq_some_iff.mp harray
      rw [ih h, List.map_set, List.length_set, ← List.getElem_map List.length,
        List.set_getElem_self]
      rwa [List.length_map]
    · cases hset

theorem subArrays_shape (h : subArrays p docs = some arrays) : arrays.length = 2 ^ p.alpha ∧
    ∀ a ∈ arrays, a.length = arraySize (baseOf p.log docs.length) (2 ^ p.alpha) := by
  have hshape := fill_shape h
  rw [List.map_replicate, List.length_replicate] at hshape
  constructor
  · have hlen := congrArg List.length hshape
    rwa [List.length_map, List.length_replicate] at hlen
  · intro a ha
    have hmem : a.length ∈ arrays.map List.length := List.mem_map_of_mem ha
    rw [hshape] at hmem
    exact List.eq_of_mem_replicate hmem

theorem arraySize_le (halpha : p.alpha ≤ baseOf p.log docs.length)
    (hbase : baseOf p.log docs.length ≤ 31) :
    arraySize (baseOf p.log docs.length) (2 ^ p.alpha) ≤ 2 ^ 31 := by
  rw [two_pow_sub_le_arraySize halpha]
  exact Nat.pow_le_pow_right (by decide) (by omega)

theorem adjOramInit_keeps (hkey : 16 ≤ p.secretKey.length)
    (hnew : ∀ i, Serves (p.newController mapKey i) fun _ => none)
    (halpha : p.alpha ≤ baseOf p.log docs.length) (hbase : baseOf p.log docs.length ≤ 31)
    (hempty : Storable (documentCodec.serialize ⟨0, []⟩))
    (hs : ∀ d ∈ docs, Storable (documentCodec.serialize d)) :
    Returns (adjOramInit p mapKey docs) [] fun _ ks => ∃ arrays, subArrays p docs = some arrays ∧
      List.Forall₂ (Keeps p) ks arrays := by
  obtain ⟨arrays, hfill, _⟩ := subArrays_exists halpha
  have hrows : ∀ a ∈ List.replicate (2 ^ p.alpha)
      (List.replicate (arraySize (baseOf p.log docs.length) (2 ^ p.alpha)) (⟨0, []⟩ : Document)),
      a.length ≤ 2 ^ 31 := by
    intro a ha
    rw [List.eq_of_mem_replicate ha, List.length_replicate]
    exact arraySize_le halpha hbase
  obtain ⟨hstored, hlengths⟩ :=
    fill_holds (P := fun d => Storable (documentCodec.serialize d)) hfill hs
    (by
      intro a ha b hb
      rw [List.eq_of_mem_replicate ha] at hb
      rwa [List.eq_of_mem_replicate hb]) hrows
  rw [adjOramInit_eq]
  refine (orThrow_returns hfill).bind ?_
  intro _ _ hpost
  obtain ⟨rfl, rfl⟩ := hpost
  refine (logged_returns (initArrays_returns hkey hnew .nil hlengths hstored)).imp ?_
  intro _ ks hks
  exact ⟨_, hfill, hks⟩

theorem adjOramInit_returns (hkey : 16 ≤ p.secretKey.length)
    (hnew : ∀ i, Serves (p.newController mapKey i) fun _ => none)
    (halpha : p.alpha ≤ baseOf p.log docs.length) (hbase : baseOf p.log docs.length ≤ 31)
    (hempty : Storable (documentCodec.serialize ⟨0, []⟩))
    (hs : ∀ d ∈ docs, Storable (documentCodec.serialize d)) :
    Returns (adjOramInit p mapKey docs) [] fun _ ks => Holds p ks docs := by
  obtain ⟨arrays, hfill, hread⟩ := subArrays_exists halpha
  refine (adjOramInit_keeps hkey hnew halpha hbase hempty hs).imp ?_
  intro _ ks hpost
  obtain ⟨arrays', hfill', hks⟩ := hpost
  cases hfill.symm.trans hfill'
  refine ⟨arrays, hks, ?_, hread⟩
  intro a ha
  rw [(subArrays_shape hfill).2 a ha]
  exact arraySize_le halpha hbase

theorem forall₂_set {α β : Type} {R : α → β → Prop} {l : List α} {l' : List β} {a : α} {b : β}
    (h : List.Forall₂ R l l') (hb : l'[i]? = some b) (hab : R a b) :
    List.Forall₂ R (l.set i a) l' := by
  induction h generalizing i with
  | nil => simp at hb
  | cons hxy h ih =>
    cases i with
    | zero =>
      rw [List.getElem?_cons_zero, Option.some.injEq] at hb
      subst hb
      exact .cons hab h
    | succ i => exact .cons hxy (ih hb)

theorem forall₂_getElem? {α β : Type} {R : α → β → Prop} {l : List α} {l' : List β} {b : β}
    (h : List.Forall₂ R l l') (hb : l'[i]? = some b) : ∃ a, l[i]? = some a ∧ R a b := by
  obtain ⟨hi, rfl⟩ := List.getElem?_eq_some_iff.mp hb
  have hl : i < l.length := h.length_eq ▸ hi
  exact ⟨l[i], List.getElem?_eq_getElem hl, h.get hl hi⟩

theorem readSubscript_returns (h : Holds p ks docs) (hi : docs[i]? = some d) :
    Returns (readSubscript p docs.length i) ks fun r ks' => r = d ∧ Holds p ks' docs := by
  obtain ⟨arrays, hks, hlengths, hread⟩ := h
  obtain ⟨s, hslot, hget⟩ := hread i d hi
  obtain ⟨array, harray, hd⟩ := Option.bind_eq_some_iff.mp hget
  have hcol : s.2 < array.length := (List.getElem?_eq_some_iff.mp hd).1
  have hshort := hlengths array (List.mem_of_getElem? harray)
  obtain ⟨k, hk, m, hserves, hm⟩ := forall₂_getElem? hks harray
  obtain ⟨data, hdata, hdec⟩ := hm s.2 d hd
  refine (orThrow_returns hslot).bind ?_
  intro bits ks hpost
  obtain ⟨rfl, rfl⟩ := hpost
  have hrange : (0 : ℤ) ≤ bits.2 ∧ (bits.2 : ℤ) < 2 ^ 31 := by omega
  refine (onSubOram_returns hk (access_read_returns hserves hrange [])).bind ?_
  intro _ _ hpost
  obtain ⟨k', ⟨rfl, hserves', _⟩, rfl⟩ := hpost
  rw [hdata, Option.getD_some]
  refine (orThrow_returns hdec).bind ?_
  intro _ _ hpost
  obtain ⟨rfl, rfl⟩ := hpost
  refine (orThrow_returns (documentCodec.roundTrip d)).imp ?_
  intro _ _ hpost
  obtain ⟨rfl, rfl⟩ := hpost
  exact ⟨rfl, arrays, forall₂_set hks harray ⟨m, hserves', hm⟩, hlengths, hread⟩

end SubOrams
