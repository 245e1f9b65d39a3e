import SseSeal.IndexStrings
import SseSeal.RemovalRuns
import SseSeal.StoppedSession
import Mathlib.Data.Finset.Card

/-! The search for several keys in one session. Its answer lists the nodes that are found under the
numbers in front of the keys. -/
namespace BatchFind

open Bytes Objects StateExcept StringCipher IndexStrings SortedMap AvlTree BinaryTree
open OramReadPathEviction OramAccessController OramFailure ClientCache OdictClient ClientSession
open ClientTree BalancedDictionary NodeRemoval RemovalRuns StorageFaults InterruptedSession
open StoppedSession
open Dictionary hiding treeOf inserted

inductive BatchError where
  | client (e : ClientError)
  | invalidArgument
  | outOfRange
  deriving DecidableEq, Repr

abbrev BatchM := EStateM BatchError Client

def onClient {α : Type} (x : ClientM α) : BatchM α := focus id (fun c _ => c) .client x

def stoi (s : Str) : BatchM ℤ := do
  let n ← orThrow .invalidArgument (signedValue s)
  if -2 ^ 31 ≤ n ∧ n < 2 ^ 31 then return n else throw .outOfRange

inductive Step where
  | single (call : Call)
  | batch (keys : List Str)

section Programs

variable (codec : Codec Node) (unfilled : Unfilled) (fuel : ℕ) (pad : ℤ → ℤ)

def findEach : List Str → Dict ℤ (Option Node) → BatchM (Dict ℤ (Option Node))
  | [], ans => return ans
  | key :: keys, ans => do
    let node ← onClient (findPriv codec key fuel (← get).rootId)
    let i ← stoi key
    findEach keys (ans.alter i fun _ => node)

/-- `find` of several keys, in one session. -/
def findKeys (keys : List Str) : BatchM (Dict ℤ (Option Node)) := do
  onClient odsStart
  let ans ← findEach codec fuel keys .empty
  onClient (odsFinalize codec (pad (← get).nodeCount))
  return ans

/-- The client after a step. The program goes on after a batch that throws. -/
def Step.client : Step → Client → Option Client
  | .single call, c =>
    match (call.run codec unfilled fuel pad).run c with
    | .ok _ c' => some c'
    | .error _ _ => none
  | .batch keys, c =>
    match (findKeys codec fuel pad keys).run c with
    | .ok _ c' => some c'
    | .error _ c' => some c'

def runSteps : List Step → Client → Option Client
  | [], c => some c
  | step :: steps, c => (step.client codec unfilled fuel pad c).bind (runSteps steps)

def serveSteps (steps : List Step) (c : Client) : Option Client :=
  match (initDummyData codec).run c with
  | .ok _ c' => runSteps codec unfilled fuel pad steps c'
  | .error _ _ => none

/-- A batch returns, and has an entry of its own for every key, with the node that a search for
this key alone finds. -/
def Agrees (c : Client) (keys : List Str) : Prop :=
  ∃ ans c', (findKeys codec fuel pad keys).run c = .ok ans c' ∧
    ∃ entry : Str → ℤ, Set.InjOn entry {key | key ∈ keys} ∧
      ∀ key ∈ keys, ∃ n c', (OdictClient.find codec fuel pad key).run c = .ok n c' ∧
        ans.find? (entry key) = some n

end Programs

def Step.calls : Step → List Call
  | .single call => [call]
  | .batch _ => []

def callsOf (steps : List Step) : List Call := steps.flatMap Step.calls

/-- The number in front of a key, if it is an `int`. -/
def leadingInt (key : Str) : Option ℤ :=
  (signedValue key).filter fun n => -2 ^ 31 ≤ n ∧ n < 2 ^ 31

/-- The keys start with different numbers. -/
structure Numbered (keys : List Str) : Prop where
  number : ∀ key ∈ keys, leadingInt key ≠ none
  distinct : Set.InjOn leadingInt {key | key ∈ keys}

variable {codec : Codec Node} {unfilled : Unfilled} {fuel : ℕ} {pad : ℤ → ℤ} {c c' : Client}
  {V : ℤ → Option Node} {t : BinaryTree Entry} {P : ℤ → Prop} {done : List Node} {key : Str}
  {keys : List Str} {i : ℤ} {n : Node} {m : ℤ → Option Str} {ans : Dict ℤ (Option Node)}

theorem stoi_ends (key : Str) (c : Client) : Ends (stoi key) c
    (fun i c' => leadingInt key = some i ∧ c' = c)
    fun _ c' => leadingInt key = none ∧ c' = c := by
  cases hvalue : signedValue key with
  | none =>
    have hrun : (stoi key).run c = .error .invalidArgument c := by
      rw [stoi, hvalue]
      rfl
    exact ends_error hrun ⟨by simp [leadingInt, hvalue], rfl⟩
  | some i =>
    by_cases hi : -2 ^ 31 ≤ i ∧ i < 2 ^ 31
    · have hrun : (stoi key).run c = .ok i c := by
        rw [stoi, hvalue]
        refine (run_bind_ok rfl).trans ?_
        rw [if_pos hi]
        rfl
      exact ends_ok hrun ⟨by simpa [leadingInt, hvalue] using hi, rfl⟩
    · have hrun : (stoi key).run c = .error .outOfRange c := by
        rw [stoi, hvalue]
        refine (run_bind_ok rfl).trans ?_
        rw [if_neg hi]
        rfl
      exact ends_error hrun ⟨by simpa [leadingInt, hvalue] using hi, rfl⟩

theorem onClient_returns {α : Type} {x : ClientM α} {post : α → Client → Prop}
    (h : Returns x c post) : Returns (onClient x) c post := by
  apply (Returns.focus id (fun c _ => c) BatchError.client h).imp
  intro a c' hpost
  obtain ⟨_, ha, rfl⟩ := hpost
  exact ha

def fetched (n : Node) : Node := { n with oldTag := n.posTag }

def foundNode (V : ℤ → Option Node) (t : BinaryTree Entry) (key : Str) : Option Node :=
  (lookup key t).bind fun item => (V item.id).map fetched

def Untouched (c : Client) : Prop := ∀ i n, c.cache.find? i = some n → n.oldTag = n.posTag

theorem fetched_eq {r : Node} (hr : clean r = n) (htag : r.oldTag = r.posTag) :
    r = fetched n := by
  subst hr
  cases r
  cases htag
  rfl

theorem readFromOram_fetches (h : Shows codec c V) (hc : Untouched c) (hV : V i = some n) :
    Returns (readFromOram codec i) c fun r c' =>
      r = fetched n ∧ Shows codec c' V ∧ Untouched c' := by
  cases hfind : c.cache.find? i with
  | some r =>
    apply (readFromOram_hit h hfind).imp
    intro _ c' hpost
    obtain ⟨rfl, rfl⟩ := hpost
    rw [h.cached i _ hfind] at hV
    exact ⟨fetched_eq (Option.some.inj hV) (hc i _ hfind), (h.lru _).congr rfl rfl rfl, hc⟩
  | none =>
    apply (readFromOram_miss h hV hfind).imp
    intro r c' hpost
    obtain ⟨hr, htag, hs, k, _, rfl⟩ := hpost
    refine ⟨fetched_eq hr htag, hs, ?_⟩
    intro j p hp
    change (c.cache.place i r).find? j = some p at hp
    rw [find?_place h.cache.nodup] at hp
    by_cases hj : j = i
    · rw [if_pos hj] at hp
      cases hp
      exact htag
    · rw [if_neg hj] at hp
      exact hc j p hp

theorem findPriv_fetches (h : Shows codec c V) (hc : Untouched c) (ht : Carries V P t)
    (hf : t.height < fuel) : Returns (findPriv codec key fuel (rootOf t)) c fun r c' =>
      r = foundNode V t key ∧ Untouched c' := by
  induction t generalizing c fuel with
  | nil =>
    cases fuel with
    | zero => exact absurd hf (Nat.not_lt_zero _)
    | succ fuel =>
      rw [findPriv, rootOf, if_pos rfl]
      exact returns_pure ⟨rfl, hc⟩
  | node e l r hl hr =>
    cases fuel with
    | zero => exact absurd hf (Nat.not_lt_zero _)
    | succ fuel =>
      have hroot : rootOf (.node e l r) ≠ 0 := (ht.root_pos h).ne'
      obtain ⟨⟨n, hn, hdesc⟩, _, htl, htr⟩ := ht
      have hfl : l.height < fuel := (le_max_left _ _).trans_lt (Nat.lt_of_succ_lt_succ hf)
      have hfr : r.height < fuel := (le_max_right _ _).trans_lt (Nat.lt_of_succ_lt_succ hf)
      rw [findPriv, if_neg hroot, foundNode, lookup]
      apply (readFromOram_fetches h hc hn).bind
      intro root c₁ hread
      obtain ⟨rfl, hs, hc₁⟩ := hread
      have hkey : (fetched n).key = e.1 := hdesc.key
      rw [hkey]
      by_cases heq : e.1 = key
      · rw [if_pos heq, if_pos heq]
        refine returns_pure ⟨?_, hc₁⟩
        rw [Option.bind_some, hn, Option.map_some]
      · rw [if_neg heq, if_neg heq]
        by_cases hlt : e.1 < key
        · rw [if_pos hlt, if_pos hlt]
          have hright : (fetched n).rightId = rootOf r := hdesc.otherChild
          rw [hright]
          exact hr hs hc₁ htr hfr
        · rw [if_neg hlt, if_neg hlt]
          have hleft : (fetched n).leftId = rootOf l := hdesc.child
          rw [hleft]
          exact hl hs hc₁ htl hfl

theorem findPriv_serves {r : Option Node} (h : Serves c.controller m)
    (hrun : (findPriv codec key fuel i).run c = .ok r c') :
    Serves c'.controller m ∧ c'.secretKey = c.secretKey := by
  have hsame : faultyClient (fun _ => false) c = c := mendClient_eq h
  rw [← hsame] at hrun
  obtain ⟨u, rfl, _, hreads⟩ := (findPriv_reads codec key fuel i).of_ok hrun
  exact ⟨⟨fun _ => rfl, holds_mend.mpr (hreads.remembers m h.holds)⟩, hreads.root.setup.secretKey⟩

def cleared (c : Client) : Client := { c with cache := c.cache.clear }

theorem find?_cleared (c : Client) (i : ℤ) : (cleared c).cache.find? i = none := rfl

structure Searching (codec : Codec Node) (t : BinaryTree Entry) (c : Client)
    (V : ℤ → Option Node) : Prop extends Working codec t c V where
  stored : ∃ m, Serves c.controller m ∧ ∀ i, 0 < i → Stored codec c.secretKey (V i) (m i)
  untouched : Untouched c

theorem cleared_searching (h : Resting codec t (cleared c) V) :
    Searching codec t (cleared c) V := by
  obtain ⟨m, hserves, hstored⟩ := h.shows'.memory
  refine ⟨h.toWorking, ⟨m, hserves, fun i hi => hstored i hi rfl⟩, ?_⟩
  intro i n hn
  cases (find?_cleared c i).symm.trans hn

theorem Searching.resting (h : Searching codec t c V) : Resting codec t (cleared c) V := by
  obtain ⟨m, hserves, hstored⟩ := h.stored
  have hcached : ∀ i n, (cleared c).cache.find? i = some n → V i = some (clean n) := by
    intro i n hn
    cases (find?_cleared c i).symm.trans hn
  have hshows : Shows codec (cleared c) V :=
    ⟨⟨m, hserves, fun i hi _ => hstored i hi⟩, clear_wellFormed h.shows'.cache, hcached,
      h.shows'.keyLength, h.shows'.valid⟩
  have hcarries : Carries V (Cached (cleared c)) t := by
    apply carries_congr _ (carries_loose h.carries)
    intro i _
    exact ⟨rfl, iff_of_false (not_not.mpr (find?_cleared c i)) not_false⟩
  exact ⟨⟨hshows, hcarries, h.rootId⟩, rfl⟩

theorem resting_cleared (h : Resting codec t c V) : Resting codec t (cleared c) V := by
  obtain ⟨_, _, hrun, hwork⟩ := start_returns h
  cases hrun
  exact ⟨hwork, rfl⟩

theorem Searching.find (h : Searching codec t c V) (hs : Sound done t)
    (hf : done.length < fuel) (key : Str) :
    Returns (findPriv codec key fuel c.rootId) c fun r c' =>
      r = foundNode V t key ∧ Searching codec t c' V := by
  have hheight : t.height < fuel := hs.height_le.trans_lt hf
  have hfetches : Returns (findPriv codec key fuel c.rootId) c fun r c' =>
      r = foundNode V t key ∧ Untouched c' := by
    rw [h.rootId]
    exact findPriv_fetches h.shows' h.untouched h.carries hheight
  obtain ⟨r, c', hrun, ⟨_, hwork⟩, hr, huntouched⟩ :=
    (findOne_returns h.toWorking hs hf key).and hfetches
  obtain ⟨m, hserves, hstored⟩ := h.stored
  obtain ⟨hserves', hkey⟩ := findPriv_serves hserves hrun
  exact ⟨r, c', hrun, hr, hwork, ⟨m, hserves', hkey ▸ hstored⟩, huntouched⟩

theorem find_returns (h : Resting codec t (cleared c) V) (hs : Sound done t)
    (hf : done.length < fuel) (pad : ℤ → ℤ) (key : Str) :
    Returns (OdictClient.find codec fuel pad key) c fun r _ => r = foundNode V t key := by
  apply returns_modify.bind
  intro _ c₁ hstart
  subst hstart
  apply returns_get.bind
  intro _ c₂ hget
  obtain ⟨rfl, rfl⟩ := hget
  apply ((cleared_searching h).find hs hf key).bind
  intro r c₃ hpost
  obtain ⟨hr, hsearch⟩ := hpost
  apply returns_get.bind
  intro _ c₄ hget
  obtain ⟨rfl, rfl⟩ := hget
  apply (finish_returns hsearch.toWorking _).bind
  intro _ c₅ _
  exact returns_pure hr

def entryNumber (key : Str) : ℤ := (leadingInt key).getD 0

def listed (V : ℤ → Option Node) (t : BinaryTree Entry) (keys : List Str)
    (ans : Dict ℤ (Option Node)) : Dict ℤ (Option Node) :=
  keys.foldl (fun ans key => ans.alter (entryNumber key) fun _ => foundNode V t key) ans

theorem findEach_ends (h : Searching codec t c V) (hs : Sound done t) (hf : done.length < fuel) :
    Ends (findEach codec fuel keys ans) c
      (fun ans' c' => ans' = listed V t keys ans ∧ (∀ key ∈ keys, leadingInt key ≠ none) ∧
        Searching codec t c' V)
      fun _ c' => (∃ key ∈ keys, leadingInt key = none) ∧ Searching codec t c' V := by
  induction keys generalizing c ans with
  | nil => exact ends_ok rfl ⟨rfl, nofun, h⟩
  | cons key keys ih =>
    apply returns_get.ends.bind
    intro _ c₁ hget
    obtain ⟨rfl, rfl⟩ := hget
    apply (onClient_returns (h.find hs hf key)).ends.bind
    intro node c₂ hpost
    obtain ⟨rfl, hsearch⟩ := hpost
    have hstoi : Ends (stoi key) c₂ (fun i c' => leadingInt key = some i ∧ c' = c₂)
        fun _ c' => (∃ k ∈ key :: keys, leadingInt k = none) ∧ Searching codec t c' V := by
      apply (stoi_ends key c₂).imp
      · exact fun _ _ h => h
      · intro _ c₃ hpost
        obtain ⟨hnone, rfl⟩ := hpost
        exact ⟨⟨key, List.mem_cons_self, hnone⟩, hsearch⟩
    apply hstoi.bind
    intro i c₃ hpost
    obtain ⟨hi, rfl⟩ := hpost
    have hentry : entryNumber key = i := by
      rw [entryNumber, hi, Option.getD_some]
    apply (ih hsearch).imp
    · intro ans' c₄ hpost
      obtain ⟨rfl, hnumbers, hsearch'⟩ := hpost
      refine ⟨?_, ?_, hsearch'⟩
      · rw [listed, listed, List.foldl_cons, hentry]
      · intro k hk
        rcases List.mem_cons.mp hk with rfl | hk
        · simp [hi]
        · exact hnumbers k hk
    · intro _ c₄ hpost
      obtain ⟨⟨k, hk, hnone⟩, hsearch'⟩ := hpost
      exact ⟨⟨k, List.mem_cons_of_mem _ hk, hnone⟩, hsearch'⟩

/-- A batch lists the keys, or ends at one that does not start with a number; the client can be
used afterwards. -/
theorem findKeys_ends (h : Resting codec t (cleared c) V) (hs : Sound done t)
    (hf : done.length < fuel) (pad : ℤ → ℤ) (keys : List Str) :
    Ends (findKeys codec fuel pad keys) c
      (fun ans c' => (ans = listed V t keys .empty ∧ ∀ key ∈ keys, leadingInt key ≠ none) ∧
        ∃ V', Resting codec t (cleared c') V')
      fun _ c' => (∃ key ∈ keys, leadingInt key = none) ∧
        ∃ V', Resting codec t (cleared c') V' := by
  have hstart : Returns odsStart c fun _ c' => c' = cleared c := returns_modify
  apply (onClient_returns hstart).ends.bind
  intro _ c₁ hclear
  subst hclear
  have hloop : Ends (findEach codec fuel keys .empty) (cleared c) _ _ :=
    findEach_ends (cleared_searching h) hs hf
  apply (hloop.imp (fun _ _ h => h) fun _ _ h => ⟨h.1, V, h.2.resting⟩).bind
  intro ans c₂ hpost
  obtain ⟨hans, hnumbers, hsearch⟩ := hpost
  apply returns_get.ends.bind
  intro _ c₃ hget
  obtain ⟨rfl, rfl⟩ := hget
  apply (onClient_returns (finish_returns hsearch.toWorking _)).ends.bind
  intro _ c₄ hpost
  obtain ⟨V', hrest⟩ := hpost
  exact ends_ok rfl ⟨⟨hans, hnumbers⟩, V', resting_cleared hrest⟩

/-- A batch agrees with the single searches exactly where its keys start with different numbers. -/
theorem agrees_iff (h : Resting codec t (cleared c) V) (hs : Sound done t)
    (hf : done.length < fuel) : Agrees codec fuel pad c keys ↔ Numbered keys := by
  have hends := findKeys_ends h hs hf pad keys
  constructor
  · intro hagrees
    obtain ⟨ans, c', hrun, entry, hentry, hfound⟩ := hagrees
    obtain ⟨⟨rfl, hnumbers⟩, _⟩ := hends.post_of_ok hrun
    refine ⟨hnumbers, ?_⟩
    -- every key has an entry of its own, and there are no more entries than numbers
    have hsub : keys.toFinset.image entry ⊆ keys.toFinset.image entryNumber := by
      intro i hi
      obtain ⟨key, hkey, rfl⟩ := Finset.mem_image.mp hi
      obtain ⟨n, _, _, hn⟩ := hfound key (List.mem_toFinset.mp hkey)
      by_contra hnot
      rw [listed, Dict.find?_foldl_alter_of_ne] at hn
      · cases hn
      · intro k hk heq
        exact hnot (Finset.mem_image.mpr ⟨k, List.mem_toFinset.mpr hk, heq⟩)
    have hcoe : (keys.toFinset : Set Str) = {key | key ∈ keys} := by
      ext key
      simp
    have hcard : (keys.toFinset.image entry).card = keys.toFinset.card :=
      Finset.card_image_of_injOn (hcoe ▸ hentry)
    have hinj : Set.InjOn entryNumber {key | key ∈ keys} := by
      rw [← hcoe]
      apply Finset.card_image_iff.mp
      exact le_antisymm Finset.card_image_le (hcard ▸ Finset.card_le_card hsub)
    intro k hk k' hk' heq
    exact hinj hk hk' (congrArg (fun number => number.getD 0) heq)
  · intro hnumbered
    rcases hends with ⟨ans, c', hrun, ⟨rfl, _⟩, _⟩ | ⟨_, _, _, ⟨key, hkey, hnone⟩, _⟩
    · have hinj : Set.InjOn entryNumber {key | key ∈ keys} := by
        intro k hk k' hk' heq
        obtain ⟨i, hi⟩ := Option.ne_none_iff_exists'.mp (hnumbered.number k hk)
        obtain ⟨j, hj⟩ := Option.ne_none_iff_exists'.mp (hnumbered.number k' hk')
        rw [entryNumber, entryNumber, hi, hj, Option.getD_some, Option.getD_some] at heq
        apply hnumbered.distinct hk hk'
        rw [hi, hj, heq]
      refine ⟨_, c', hrun, entryNumber, hinj, ?_⟩
      intro key hkey
      obtain ⟨n, c'', hfind, rfl⟩ := find_returns h hs hf pad key
      refine ⟨_, c'', hfind, ?_⟩
      exact Dict.find?_foldl_alter hkey fun k hk heq => hinj hk hkey heq
    · exact absurd hnone (hnumbered.number key hkey)

theorem run_cleared (call : Call) : (call.run codec unfilled fuel pad).run (cleared c) =
    (call.run codec unfilled fuel pad).run c := by
  cases call with
  | insert nodes => rfl
  | find key => rfl
  | remove key => rfl

theorem step_client {step : Step} (h : Resting codec t (cleared c) V) (hs : Sound done t)
    (hins : Insertable (done ++ inserted step.calls))
    (hf : (done ++ inserted step.calls).length < fuel)
    (hclear : AllClear unfilled step.calls t) (pad : ℤ → ℤ) :
    ∃ c' V', step.client codec unfilled fuel pad c = some c' ∧
      Resting codec (treeOf step.calls t) (cleared c') V' ∧
      Sound (done ++ inserted step.calls) (treeOf step.calls t) := by
  cases step with
  | single call =>
    have hnodes : inserted (Step.single call).calls = call.nodes := List.append_nil _
    rw [hnodes] at hins hf ⊢
    have hcall : ∀ key, call = .remove key → Clear unfilled key t := fun key => hclear.head
    have hreturns : Returns (call.run codec unfilled fuel pad) (cleared c) _ :=
      call_returns h hs hins hf hcall
    obtain ⟨answer, c', hrun, ⟨V', hrest⟩, _⟩ := hreturns
    rw [run_cleared] at hrun
    refine ⟨c', V', ?_, resting_cleared hrest, (call_sound hs hins hcall).1⟩
    rw [Step.client, hrun]
  | batch keys =>
    have hnodes : inserted (Step.batch keys).calls = [] := rfl
    rw [hnodes, List.append_nil] at hf ⊢
    rcases findKeys_ends h hs hf pad keys with
      ⟨_, c', hrun, _, V', hrest⟩ | ⟨_, c', hrun, _, V', hrest⟩
    · exact ⟨c', V', by rw [Step.client, hrun], hrest, hs⟩
    · exact ⟨c', V', by rw [Step.client, hrun], hrest, hs⟩

theorem AllClear.append {before after : List Call} (h : AllClear unfilled (before ++ after) t) :
    AllClear unfilled before t ∧ AllClear unfilled after (treeOf before t) := by
  constructor
  · intro first key rest hsplit
    apply h first key (rest ++ after)
    rw [hsplit, List.append_assoc, List.cons_append]
  · intro first key rest hsplit
    have hclear := h (before ++ first) key rest (by rw [hsplit, List.append_assoc])
    rwa [treeOf, List.foldl_append] at hclear

theorem runSteps_returns {steps : List Step} (h : Resting codec t (cleared c) V)
    (hs : Sound done t) (hins : Insertable (done ++ inserted (callsOf steps)))
    (hf : (done ++ inserted (callsOf steps)).length < fuel)
    (hclear : AllClear unfilled (callsOf steps) t) (pad : ℤ → ℤ) :
    ∃ c' V', runSteps codec unfilled fuel pad steps c = some c' ∧
      Resting codec (treeOf (callsOf steps) t) (cleared c') V' ∧
      Sound (done ++ inserted (callsOf steps)) (treeOf (callsOf steps) t) := by
  induction steps generalizing c V t done with
  | nil =>
    rw [callsOf, List.flatMap_nil, inserted, List.flatMap_nil, List.append_nil]
    exact ⟨c, V, rfl, h, hs⟩
  | cons step steps ih =>
    have hcalls : callsOf (step :: steps) = step.calls ++ callsOf steps := List.flatMap_cons
    have hnodes : done ++ inserted (callsOf (step :: steps)) =
        (done ++ inserted step.calls) ++ inserted (callsOf steps) := by
      rw [hcalls, inserted, List.flatMap_append, ← inserted, ← inserted, List.append_assoc]
    have htree : treeOf (callsOf (step :: steps)) t =
        treeOf (callsOf steps) (treeOf step.calls t) := by
      rw [hcalls, treeOf, List.foldl_append]
      rfl
    rw [hnodes] at hins hf ⊢
    rw [hcalls] at hclear
    rw [htree]
    obtain ⟨hfirst, hrest⟩ := AllClear.append hclear
    have hlen : (done ++ inserted step.calls).length < fuel := by
      rw [List.length_append] at hf
      omega
    obtain ⟨c₁, V₁, hstep, h₁, hs₁⟩ :=
      step_client h hs (hins.sub (List.sublist_append_left _ _)) hlen hfirst pad
    obtain ⟨c₂, V₂, hrun, h₂⟩ := ih h₁ hs₁ hins hf hrest
    refine ⟨c₂, V₂, ?_, h₂⟩
    rw [runSteps, hstep, Option.bind_some, hrun]

section Serve

variable {bucketSize blockNumber : ℕ} {storage : Storage} {randGen : RandomForOram} {o : Oram}
  {steps : List Step}

theorem serveSteps_returns (codec : Codec Node) (pad : ℤ → ℤ) (hs : ∀ k, storage.fails k = false)
    (hbuild : construct.run (blank bucketSize blockNumber storage randGen) = .ok ⟨⟩ o)
    (order : HashOrder) {secretKey : Str} (hkey : 16 ≤ secretKey.length)
    (hins : Insertable (inserted (callsOf steps))) (hf : (inserted (callsOf steps)).length < fuel)
    (hclear : AllClear unfilled (callsOf steps) .nil) :
    ∃ c V, serveSteps codec unfilled fuel pad steps (Client.fresh secretKey order o) = some c ∧
      Resting codec (treeOf (callsOf steps) .nil) (cleared c) V ∧
      Sound (inserted (callsOf steps)) (treeOf (callsOf steps) .nil) := by
  have hinitial : Returns (initDummyData codec) (Client.fresh secretKey order o) _ :=
    fresh_resting hs hbuild order hkey
  obtain ⟨_, c₀, hinit, V₀, hrest⟩ := hinitial
  obtain ⟨c, V, hrun, hcarries⟩ :=
    runSteps_returns (resting_cleared hrest) Sound.nil hins hf hclear pad
  refine ⟨c, V, ?_, hcarries⟩
  rw [serveSteps, hinit]
  exact hrun

/-- After every run whose removals start from trees in which the code handles them, a batch agrees
with the single searches exactly where its keys start with different numbers. -/
theorem findKeys_agrees_iff (codec : Codec Node) (pad : ℤ → ℤ)
    (hs : ∀ k, storage.fails k = false)
    (hbuild : construct.run (blank bucketSize blockNumber storage randGen) = .ok ⟨⟩ o)
    (order : HashOrder) {secretKey : Str} (hkey : 16 ≤ secretKey.length)
    (hins : Insertable (inserted (callsOf steps))) (hf : (inserted (callsOf steps)).length < fuel)
    (hclear : AllClear unfilled (callsOf steps) .nil) :
    ∃ c, serveSteps codec unfilled fuel pad steps (Client.fresh secretKey order o) = some c ∧
      ∀ keys, Agrees codec fuel pad c keys ↔ Numbered keys := by
  obtain ⟨c, V, hrun, hrest, hsound⟩ :=
    serveSteps_returns codec pad hs hbuild order hkey hins hf hclear
  exact ⟨c, hrun, fun keys => agrees_iff hrest hsound hf⟩

/-- The keys "1a", "1b" and "2", and a batch with the key "a", which throws. -/
def sampleSteps : List Step :=
  [.single (.insert [.fresh 1 [49, 97] [1], .fresh 2 [49, 98] [2], .fresh 3 [50] [3]]),
    .batch [[50], [97]]]

theorem sampleSteps_insertable : Insertable (inserted (callsOf sampleSteps)) :=
  ⟨by decide, by decide, by simp [inserted, callsOf, Step.calls, sampleSteps, Call.nodes,
    Node.fresh, Storable, blockBytes], by decide⟩

theorem sampleSteps_clear : AllClear .changed (callsOf sampleSteps) .nil := .cons nofun .nil

theorem findKeys_agrees_iff_sample : ∃ (o : Oram) (c : Client),
    construct.run (blank 1 2 .new ⟨0, fun k => k, 0⟩) = .ok ⟨⟩ o ∧
    serveSteps ObjectArchive.nodeCodec .changed 4 id sampleSteps
      (Client.fresh sampleKey .newestFirst o) = some c ∧
    Agrees ObjectArchive.nodeCodec 4 id c [[49, 97], [50], [49, 97]] := by
  obtain ⟨o, hbuild⟩ := construct_small
  have hf : (inserted (callsOf sampleSteps)).length < 4 := by decide
  obtain ⟨c, hrun, hagrees⟩ := findKeys_agrees_iff ObjectArchive.nodeCodec id (fun _ => rfl) hbuild
    .newestFirst sampleKey_length sampleSteps_insertable hf sampleSteps_clear
  have hdistinct : ∀ k ∈ ([[49, 97], [50], [49, 97]] : List Str),
      ∀ k' ∈ ([[49, 97], [50], [49, 97]] : List Str), leadingInt k = leadingInt k' → k = k' := by
    decide
  have hnumbered : Numbered [[49, 97], [50], [49, 97]] :=
    ⟨by decide, fun k hk k' hk' => hdistinct k hk k' hk'⟩
  refine ⟨o, c, hbuild, ?_, ?_⟩
  · exact hrun
  · exact (hagrees _).mpr hnumbered

/-- A batch throws at a key without a number, and of keys with one number it answers for the last
only. -/
theorem unnumbered_disagrees : ∃ (o : Oram) (c : Client),
    construct.run (blank 1 2 .new ⟨0, fun k => k, 0⟩) = .ok ⟨⟩ o ∧
    serveSteps ObjectArchive.nodeCodec .changed 4 id sampleSteps
      (Client.fresh sampleKey .newestFirst o) = some c ∧
    ¬ Agrees ObjectArchive.nodeCodec 4 id c [[97]] ∧
    ¬ Agrees ObjectArchive.nodeCodec 4 id c [[49, 97], [49, 98]] := by
  obtain ⟨o, hbuild⟩ := construct_small
  have hf : (inserted (callsOf sampleSteps)).length < 4 := by decide
  obtain ⟨c, V, hrun, hrest, hsound⟩ := serveSteps_returns ObjectArchive.nodeCodec id
    (fun _ => rfl) hbuild .newestFirst sampleKey_length sampleSteps_insertable hf sampleSteps_clear
  refine ⟨o, c, hbuild, ?_, ?_, ?_⟩
  · exact hrun
  · intro hagrees
    have hnumbered := (agrees_iff hrest hsound hf).mp hagrees
    exact hnumbered.number [97] List.mem_cons_self (by decide)
  · intro hagrees
    have hnumbered := (agrees_iff hrest hsound hf).mp hagrees
    have heq : ([49, 97] : Str) = [49, 98] :=
      hnumbered.distinct (by simp) (by simp) (by decide)
    cases heq

end Serve

end BatchFind
