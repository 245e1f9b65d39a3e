import SseSeal.BalancedDictionary
import SseSeal.SessionInvariants
import Mathlib.Algebra.Order.Floor.Ring
import Mathlib.Analysis.SpecialFunctions.Log.Basic
import Mathlib.Data.Nat.Fib.Basic

/-! The padding of a search. A search tree of `n` keys in which the sides of every node differ by
one level has at most as many levels as the padding allows reads, and the padding is computed
from a counter that counts every node that was ever made. -/
namespace FindPadding

open Bytes Objects StateExcept StringCipher AvlTree BinaryTree OramReadPathEviction
open OramAccessController ClientCache OdictClient ClientSession ClientTree Dictionary
open BalancedDictionary SessionInvariants

theorem fib_max_le {m n : ℕ} (hmn : m ≤ n + 1) (hnm : n ≤ m + 1) :
    Nat.fib (max m n + 1 + 2) ≤ Nat.fib (m + 2) + Nat.fib (n + 2) := by
  rcases le_total n m with hle | hle
  · rw [max_eq_left hle, Nat.fib_add_two, Nat.add_comm]
    exact Nat.add_le_add_left (Nat.fib_mono (by omega)) _
  · rw [max_eq_right hle, Nat.fib_add_two]
    exact Nat.add_le_add_right (Nat.fib_mono (by omega)) _

/-- A balanced tree of a height has as many nodes as a Fibonacci number says. -/
theorem fib_height_le {α : Type} {t : BinaryTree α} (h : AvlTree.Balanced t) :
    Nat.fib (t.height + 2) ≤ t.numNodes + 1 := by
  induction t with
  | nil => exact le_rfl
  | node e l r hl hr =>
    obtain ⟨hlr, hrl, hbl, hbr⟩ := h
    have hleft := hl hbl
    have hright := hr hbr
    have hboth := fib_max_le hlr hrl
    rw [BinaryTree.height, BinaryTree.numNodes]
    omega

theorem length_visited_le {κ ν : Type} [LinearOrder κ] (k : κ) (t : BinaryTree (κ × ν)) :
    (visited k t).length ≤ t.height := by
  induction t with
  | nil => exact le_rfl
  | node e l r hl hr =>
    rw [visited, List.length_cons, BinaryTree.height, Nat.add_le_add_iff_right]
    split
    · exact Nat.zero_le _
    · split
      · exact hr.trans (le_max_right _ _)
      · exact hl.trans (le_max_left _ _)

theorem pow_le_fib (d : ℕ) : (3 / 2 : ℝ) ^ d ≤ Nat.fib (d + 2) := by
  induction d using Nat.twoStepInduction with
  | zero => norm_num
  | one => norm_num [Nat.fib_add_two]
  | more d ih ih' =>
    rw [Nat.fib_add_two, Nat.cast_add]
    have hpow : (3 / 2 : ℝ) ^ (d + 2) ≤ (3 / 2) ^ d + (3 / 2) ^ (d + 1) := by
      have hpos : (0 : ℝ) ≤ (3 / 2) ^ d := by positivity
      rw [pow_succ, pow_succ]
      linarith
    linarith

/-- The padding of `find`, for an exact logarithm. -/
noncomputable def findPad (nodeCount : ℤ) : ℤ := ⌊3 * 1.44 * Real.log nodeCount⌋

theorem depth_le_findPad {d n : ℕ} {nodeCount : ℤ} (hd : Nat.fib (d + 2) ≤ n + 1)
    (hn : (n : ℤ) + 1 ≤ nodeCount) : (d : ℤ) ≤ findPad nodeCount := by
  have hpow : (3 / 2 : ℝ) ^ d ≤ nodeCount := by
    calc (3 / 2 : ℝ) ^ d ≤ Nat.fib (d + 2) := pow_le_fib d
      _ ≤ ((n + 1 : ℕ) : ℝ) := by exact_mod_cast hd
      _ ≤ nodeCount := by exact_mod_cast hn
  have hbase : (1 : ℝ) / 3 ≤ Real.log (3 / 2) := by
    have hlog := Real.one_sub_inv_le_log_of_pos (show (0 : ℝ) < 3 / 2 by norm_num)
    norm_num at hlog ⊢
    exact hlog
  have hlog : (d : ℝ) * Real.log (3 / 2) ≤ Real.log nodeCount := by
    rw [← Real.log_pow]
    exact Real.log_le_log (by positivity) hpow
  have hd0 : (0 : ℝ) ≤ d := Nat.cast_nonneg d
  rw [findPad, Int.le_floor, Int.cast_natCast]
  nlinarith

section Counter

variable {codec : Codec Node}

theorem onController_keeps {α : Type} (x : ControllerM α) :
    Keeps Client.nodeCount (onController x) :=
  keeps_focus Client.controller Client.withController ClientError.access (fun _ _ => rfl) x

theorem cacheGet_keeps (id : ℤ) : Keeps Client.nodeCount (cacheGet id) := by
  intro c n c' h
  cases h
  rfl

theorem cachePut_keeps (id : ℤ) (n : Node) : Keeps Client.nodeCount (cachePut id n) := by
  intro c a c' h
  obtain ⟨_, _, hget, h⟩ := bind_ok h
  cases hget
  obtain ⟨⟨_, cache⟩, _, hput, hset⟩ := bind_ok h
  obtain ⟨_, rfl⟩ := orThrow_ok hput
  cases hset
  rfl

theorem cacheHelper_keeps (id : ℤ) : Keeps Client.nodeCount (cacheHelper codec id) := by
  apply (keeps_get.bind fun _ => keeps_pure _).bind
  intro pos
  apply (onController_keeps _).bind
  intro buffer
  apply (keeps_orThrow _ _).bind
  intro ret
  apply keeps_get.bind
  intro c
  apply (keeps_orThrow _ _).bind
  intro plaintext
  exact (keeps_orThrow _ _).bind fun _ => keeps_pure _

theorem odsAccess_keeps (op : OdictOperation) : Keeps Client.nodeCount (odsAccess codec op) := by
  apply (keeps_orThrow _ _).bind
  intro node
  cases op.op with
  | read =>
    refine .bind (keeps_modify fun _ => rfl) ?_
    intro _
    apply (cacheGet_keeps _).bind
    intro ret
    split
    · exact keeps_pure _
    · apply (cacheHelper_keeps _).bind
      intro fetched
      exact (cachePut_keeps _ _).bind fun _ => keeps_pure _
  | write =>
    refine .bind (keeps_modify fun _ => rfl) ?_
    intro _
    apply (cacheGet_keeps _).bind
    intro ret
    split
    · exact (cachePut_keeps _ _).bind fun _ => keeps_pure _
    · apply (cacheHelper_keeps _).bind
      intro fetched
      exact (cachePut_keeps _ _).bind fun _ => keeps_pure _
  | delete =>
    apply (cacheGet_keeps _).bind
    intro ret
    split
    · exact keeps_pure _
    · exact (cacheHelper_keeps _).bind fun _ => keeps_pure _
  | insert => exact (cachePut_keeps _ _).bind fun _ => keeps_pure _

theorem findPriv_keeps (key : Str) (fuel : ℕ) (id : ℤ) :
    Keeps Client.nodeCount (findPriv codec key fuel id) :=
  Keeps.of_stable fun v => findPriv_stable (fun _ _ => trivial)
    (fun op _ => (odsAccess_keeps op).stable v) key fuel id

theorem evictNode_keeps : Keeps Client.nodeCount (evictNode codec) := by
  apply keeps_get.bind
  intro c
  split
  · exact keeps_throw _
  · apply (keeps_orThrow _ _).bind
    intro ciphertext
    apply (keeps_orThrow _ _).bind
    intro encryptedKey
    apply (onController_keeps _).bind
    intro _
    exact keeps_modify fun _ => rfl

theorem odsFinalize_keeps (pad : ℤ) : Keeps Client.nodeCount (odsFinalize codec pad) := by
  have hretag : Keeps Client.nodeCount retagCache := by
    apply keeps_get.bind
    intro c
    exact (onController_keeps _).bind fun _ => keeps_modify fun _ => rfl
  have hread : Keeps Client.nodeCount dummyRead := (onController_keeps _).bind fun _ => keeps_pure _
  have hwrite : Keeps Client.nodeCount (dummyWrite codec) :=
    (onController_keeps _).bind fun _ => keeps_pure _
  apply hretag.bind
  intro _
  apply keeps_get.bind
  intro c
  apply (keeps_forM fun _ => hread).bind
  intro _
  apply (keeps_get.bind fun _ => keeps_forM fun _ => evictNode_keeps).bind
  intro _
  apply keeps_get.bind
  intro c
  apply (keeps_forM fun _ => hwrite).bind
  intro _
  exact keeps_modify fun _ => rfl

theorem insertNodes_keeps (fuel : ℕ) (pad : ℤ → ℤ) (nodes : List Node) :
    Keeps Client.nodeCount (insertNodes codec fuel pad nodes) := by
  refine .bind (keeps_modify fun _ => rfl) ?_
  intro _
  refine .bind (Keeps.of_stable fun v => insertAll_stable (fun _ _ => trivial)
    (fun op _ => (odsAccess_keeps op).stable v) (fun _ _ hc => hc) fuel nodes) ?_
  intro _
  exact keeps_get.bind fun _ => odsFinalize_keeps _

theorem find_keeps (fuel : ℕ) (pad : ℤ → ℤ) (key : Str) :
    Keeps Client.nodeCount (OdictClient.find codec fuel pad key) := by
  refine .bind (keeps_modify fun _ => rfl) ?_
  intro _
  apply keeps_get.bind
  intro c
  apply (findPriv_keeps _ _ _).bind
  intro node
  apply keeps_get.bind
  intro c
  exact (odsFinalize_keeps _).bind fun _ => keeps_pure _

end Counter

def numbered (start : ℤ) : List (Str × Str) → List Node
  | [] => []
  | e :: items => .fresh start e.1 e.2 :: numbered (start + 1) items

/-- The loop of `adj_insert` and of `create_test_cases`, which gives each node the next id. -/
def numberNodes : List (Str × Str) → ClientM (List Node)
  | [] => return []
  | e :: items => do
    let c ← get
    set { c with nodeCount := c.nodeCount + 1 }
    let nodes ← numberNodes items
    return .fresh c.nodeCount e.1 e.2 :: nodes

inductive Call where
  | insert (items : List (Str × Str))
  | find (key : Str)

section Runs

variable (codec : Codec Node) (fuel : ℕ) (insertPad findPad : ℤ → ℤ)

def Call.run : Call → ClientM (Option Node)
  | insert items => do
    let nodes ← numberNodes items
    (Request.insert nodes).run codec fuel insertPad findPad
  | find key => (Request.find key).run codec fuel insertPad findPad

def runCalls (calls : List Call) : ClientM PUnit := do
  initDummyData codec
  calls.forM fun call => do
    let _ ← call.run codec fuel insertPad findPad

end Runs

def Call.items : Call → List (Str × Str)
  | insert items => items
  | find _ => []

def inserted (calls : List Call) : List (Str × Str) := calls.flatMap Call.items

theorem numbered_append (start : ℤ) (items later : List (Str × Str)) :
    numbered start (items ++ later) =
      numbered start items ++ numbered (start + items.length) later := by
  induction items generalizing start with
  | nil => simp [numbered]
  | cons e items ih =>
    have hstart : start + 1 + (items.length : ℤ) = start + ((e :: items).length : ℕ) := by
      rw [List.length_cons]
      push_cast
      ring
    rw [List.cons_append, numbered, ih, numbered, hstart, List.cons_append]

theorem length_numbered (start : ℤ) (items : List (Str × Str)) :
    (numbered start items).length = items.length := by
  induction items generalizing start with
  | nil => rfl
  | cons e items ih => rw [numbered, List.length_cons, ih, List.length_cons]

theorem mem_numbered {start : ℤ} {items : List (Str × Str)} {n : Node}
    (h : n ∈ numbered start items) : ∃ e ∈ items, n = .fresh n.id e.1 e.2 ∧
      start ≤ n.id ∧ n.id < start + items.length := by
  induction items generalizing start with
  | nil => cases h
  | cons e items ih =>
    rw [List.length_cons]
    rcases List.mem_cons.mp h with rfl | hmem
    · refine ⟨e, List.mem_cons_self, rfl, le_rfl, ?_⟩
      change start < _
      push_cast
      omega
    · obtain ⟨e', he', hn, hlow, hhigh⟩ := ih hmem
      refine ⟨e', List.mem_cons_of_mem _ he', hn, by omega, ?_⟩
      push_cast
      omega

theorem insertable_numbered {items : List (Str × Str)}
    (hst : ∀ e ∈ items, Storable e.1 ∧ Storable e.2) (hlen : (items.length : ℤ) + 1 ≤ 2 ^ 31) :
    Insertable (numbered 1 items) := by
  have hnodup : ∀ start : ℤ, ((numbered start items).map Node.id).Nodup := by
    clear hst hlen
    induction items with
    | nil => exact fun _ => List.nodup_nil
    | cons e items ih =>
      intro start
      rw [numbered, List.map_cons, List.nodup_cons]
      refine ⟨?_, ih _⟩
      intro hmem
      obtain ⟨n, hn, hid⟩ := List.mem_map.mp hmem
      obtain ⟨_, _, _, hlow, _⟩ := mem_numbered hn
      change n.id = start at hid
      omega
  refine ⟨?_, ?_, ?_, hnodup 1⟩
  · intro n hn
    obtain ⟨e, _, heq, _⟩ := mem_numbered hn
    rw [heq]
    rfl
  · intro n hn
    obtain ⟨_, _, _, hlow, hhigh⟩ := mem_numbered hn
    omega
  · intro n hn
    obtain ⟨e, he, heq, _⟩ := mem_numbered hn
    rw [heq]
    exact hst e he

variable {codec : Codec Node} {fuel : ℕ} {c : Client} {items : List (Str × Str)}

theorem numberNodes_returns (items : List (Str × Str)) (c : Client) :
    Returns (numberNodes items) c fun nodes c' => nodes = numbered c.nodeCount items ∧
      c' = { c with nodeCount := c.nodeCount + items.length } := by
  induction items generalizing c with
  | nil => exact returns_pure ⟨rfl, by simp⟩
  | cons e items ih =>
    apply returns_get.bind
    intro _ c₁ hget
    obtain ⟨rfl, rfl⟩ := hget
    apply returns_set.bind
    intro _ c₂ hset
    subst hset
    apply (ih _).bind
    intro nodes c₃ hrest
    obtain ⟨rfl, rfl⟩ := hrest
    refine returns_pure ⟨rfl, ?_⟩
    rw [List.length_cons, Nat.cast_succ, add_assoc, add_comm 1]

structure Counts (codec : Codec Node) (items : List (Str × Str)) (c : Client) : Prop where
  idle : ∃ V, Idle codec (numbered 1 items) c V
  nodeCount : c.nodeCount = 1 + items.length

theorem call_returns (insertPad findPad : ℤ → ℤ) {call : Call}
    (h : Counts codec items c) (hins : Insertable (numbered 1 (items ++ call.items)))
    (hf : (items ++ call.items).length < fuel) :
    Returns (call.run codec fuel insertPad findPad) c fun _ c' =>
      Counts codec (items ++ call.items) c' := by
  obtain ⟨⟨V, hidle⟩, hcount⟩ := h
  cases call with
  | insert later =>
    apply (numberNodes_returns later c).bind
    intro nodes c₁ hnodes
    obtain ⟨rfl, rfl⟩ := hnodes
    have hsplit : numbered 1 (items ++ later) =
        numbered 1 items ++ numbered c.nodeCount later := by
      rw [numbered_append, hcount]
    have hidle' : Idle codec (numbered 1 items)
        { c with nodeCount := c.nodeCount + later.length } V :=
      ⟨hidle.shows'.congr rfl rfl rfl, hidle.carries, hidle.rootId, hidle.support,
        hidle.nothing_cached, hidle.readCount, hidle.writeCount⟩
    have hlen : (numbered 1 items ++ numbered c.nodeCount later).length ≤ fuel := by
      rw [← hsplit, length_numbered]
      exact hf.le
    have hreturns := insertNodes_returns hidle' (hsplit ▸ hins) hlen insertPad
    obtain ⟨_, c₂, hrun, hidle₂⟩ := hreturns
    refine ⟨none, c₂, run_bind_ok hrun, hsplit ▸ hidle₂, ?_⟩
    rw [insertNodes_keeps fuel insertPad _ _ _ _ hrun]
    change c.nodeCount + _ = 1 + ((items ++ later).length : ℤ)
    rw [hcount, List.length_append]
    push_cast
    ring
  | find key =>
    rw [Call.items, List.append_nil] at hins hf ⊢
    have hlen : (numbered 1 items).length < fuel := by rwa [length_numbered]
    obtain ⟨r, c₁, hrun, _, hidle₁, _⟩ := find_returns hidle hins hlen findPad key
    exact ⟨r, c₁, hrun, hidle₁, (find_keeps fuel findPad key _ _ _ hrun).trans hcount⟩

theorem calls_returns (insertPad findPad : ℤ → ℤ) {calls : List Call}
    (h : Counts codec items c) (hins : Insertable (numbered 1 (items ++ inserted calls)))
    (hf : (items ++ inserted calls).length < fuel) :
    Returns (calls.forM fun call => do
      let _ ← call.run codec fuel insertPad findPad) c fun _ c' =>
        Counts codec (items ++ inserted calls) c' := by
  refine (returns_forM (fun l u => ∃ pre, pre ++ inserted l = items ++ inserted calls ∧
    Counts codec pre u) ?_ ⟨items, rfl, h⟩).imp ?_
  · intro call l u hpre
    obtain ⟨pre, hsplit, hu⟩ := hpre
    have hsplit' : (pre ++ call.items) ++ inserted l = items ++ inserted calls := by
      rw [← hsplit, inserted, inserted, List.flatMap_cons, List.append_assoc]
    have hpre : (numbered 1 (pre ++ call.items)).Sublist
        (numbered 1 (items ++ inserted calls)) := by
      rw [← hsplit', numbered_append 1 (pre ++ call.items)]
      exact List.sublist_append_left _ _
    have hlen : (pre ++ call.items).length < fuel := by
      rw [← hsplit', List.length_append] at hf
      omega
    apply (call_returns insertPad findPad hu (hins.sub hpre) hlen).bind
    intro _ u' hu'
    exact returns_pure ⟨_, hsplit', hu'⟩
  · intro _ u hpre
    obtain ⟨pre, hsplit, hu⟩ := hpre
    rw [inserted, List.flatMap_nil, List.append_nil] at hsplit
    exact hsplit ▸ hu

theorem reads_returns (h : Counts codec items c) (hins : Insertable (numbered 1 items))
    (hf : items.length < fuel) (key : Str) :
    ∃ c₁ r c₂, odsStart.run c = .ok ⟨⟩ c₁ ∧
      (findPriv codec key fuel c₁.rootId).run c₁ = .ok r c₂ ∧
      c₂.readCount = (visited key (treeOf (numbered 1 items))).length ∧
      c₂.nodeCount = 1 + items.length := by
  obtain ⟨⟨V, hidle⟩, hcount⟩ := h
  obtain ⟨_, c₁, hstart, heq, hidle₁, hopen⟩ := odsStart_returns hidle
  have hlen : (numbered 1 items).length < fuel := by rwa [length_numbered]
  obtain ⟨r, c₂, hrun, _, _, hcounted⟩ := findOne_returns hopen hins hlen key
  refine ⟨c₁, r, c₂, hstart, hrun, ?_, ?_⟩
  · rw [hcounted.readCount, hidle₁.readCount, zero_add, visitedIds, List.length_map]
  · rw [findPriv_keeps key fuel _ _ _ _ hrun, heq]
    exact hcount

theorem length_entries_eq {nodes : List Node} {t : BinaryTree Node} (h : AvlInvariant nodes t) :
    (entries t).length = (entries (treeOf nodes)).length := by
  have hperm : ((entries t).map Node.key).Perm ((entries (treeOf nodes)).map Prod.fst) := by
    rw [List.perm_ext_iff_of_nodup (h.keys.imp ne_of_lt) ((ordered_treeOf nodes).imp ne_of_lt)]
    intro key
    rw [h.inserted, mem_keys_treeOf]
  simpa using hperm.length_eq

section Serve

variable {bucketSize blockNumber : ℕ} {storage : Storage} {randGen : RandomForOram} {o : Oram}

/-- After any run, a search for any key reads no more nodes than its padding, by the Fibonacci
bound on the height of the tree. -/
theorem find_within_padding (codec : Codec Node) (insertPad : ℤ → ℤ)
    (hs : ∀ k, storage.fails k = false)
    (hbuild : construct.run (blank bucketSize blockNumber storage randGen) = .ok ⟨⟩ o)
    (order : HashOrder) {secretKey : Str} (hkey : 16 ≤ secretKey.length) {calls : List Call}
    (hst : ∀ e ∈ inserted calls, Storable e.1 ∧ Storable e.2)
    (hlen : ((inserted calls).length : ℤ) + 1 ≤ 2 ^ 31) (hf : (inserted calls).length < fuel) :
    ∃ c t, (runCalls codec fuel insertPad findPad calls).run
        (Client.fresh secretKey order o) = .ok ⟨⟩ c ∧
      Linked codec c c.rootId t ∧ AvlInvariant (numbered 1 (inserted calls)) t ∧
      ∀ key, ∃ c₁ r c₂ d, odsStart.run c = .ok ⟨⟩ c₁ ∧
        (findPriv codec key fuel c₁.rootId).run c₁ = .ok r c₂ ∧ c₂.readCount = (d : ℕ) ∧
        Nat.fib (d + 2) ≤ (entries t).length + 1 ∧ (d : ℤ) ≤ findPad c₂.nodeCount ∧
        0 ≤ findPad c₂.nodeCount - c₂.readCount := by
  have hins := insertable_numbered hst hlen
  have hinitial : Returns (initDummyData codec) (Client.fresh secretKey order o) _ :=
    fresh_idle hs hbuild order hkey
  obtain ⟨_, c₀, hinit, ⟨V₀, hidle₀⟩, hcount₀⟩ := hinitial
  have hfresh : Counts codec [] c₀ := ⟨⟨V₀, hidle₀⟩, hcount₀⟩
  obtain ⟨_, c, hrun, hcounts⟩ := calls_returns insertPad findPad hfresh hins hf
  rw [List.nil_append] at hcounts
  obtain ⟨V, hidle⟩ := hcounts.idle
  obtain ⟨t, hlinked, havl, _⟩ := avlInvariant_of_idle hidle hins.distinct
  refine ⟨c, t, (run_bind_ok hinit).trans hrun, hlinked, havl, ?_⟩
  intro key
  obtain ⟨c₁, r, c₂, hstart, hfind, hreads, hnodes⟩ := reads_returns hcounts hins hf key
  have hdepth : Nat.fib ((visited key (treeOf (numbered 1 (inserted calls)))).length + 2) ≤
      (entries t).length + 1 := by
    rw [length_entries_eq havl, length_entries]
    exact (Nat.fib_mono (Nat.add_le_add_right (length_visited_le key _) 2)).trans
      (fib_height_le (balanced_treeOf _))
  have hcard : ((entries t).length : ℤ) + 1 ≤ c₂.nodeCount := by
    have hle := numNodes_treeOf_le hins.distinct
    rw [length_numbered, ← length_entries, ← length_entries_eq havl] at hle
    omega
  have hpad := depth_le_findPad hdepth hcard
  refine ⟨c₁, r, c₂, _, hstart, hfind, hreads, hdepth, hpad, ?_⟩
  rw [hreads]
  omega

def sampleCalls : List Call :=
  [.insert [([97], [1]), ([98], [2])], .find [98], .insert [([98], [3]), ([99], [4])]]

theorem find_within_padding_sample :
    ∃ (o : Oram) (c : Client) (t : BinaryTree Node),
      construct.run (blank 1 2 .new ⟨0, fun k => k, 0⟩) = .ok ⟨⟩ o ∧
      (runCalls ObjectArchive.nodeCodec 5 id findPad sampleCalls).run
        (Client.fresh sampleKey .newestFirst o) = .ok ⟨⟩ c ∧
      Linked ObjectArchive.nodeCodec c c.rootId t ∧
      ∀ key, ∃ c₁ r c₂, odsStart.run c = .ok ⟨⟩ c₁ ∧
        (findPriv ObjectArchive.nodeCodec key 5 c₁.rootId).run c₁ = .ok r c₂ ∧
        0 ≤ findPad c₂.nodeCount - c₂.readCount := by
  obtain ⟨o, hbuild⟩ := construct_small
  have hst : ∀ e ∈ inserted sampleCalls, Storable e.1 ∧ Storable e.2 := by
    simp [inserted, sampleCalls, Call.items, Storable, blockBytes]
  have hf : (inserted sampleCalls).length < 5 := by decide
  obtain ⟨c, t, hrun, hlinked, _, hfind⟩ := find_within_padding ObjectArchive.nodeCodec id
    (fun _ => rfl) hbuild .newestFirst sampleKey_length hst (by decide) hf
  refine ⟨o, c, t, hbuild, hrun, hlinked, ?_⟩
  intro key
  obtain ⟨c₁, r, c₂, _, hstart, hreads, _, _, _, hpad⟩ := hfind key
  exact ⟨c₁, r, c₂, hstart, hreads, hpad⟩

end Serve

end FindPadding
