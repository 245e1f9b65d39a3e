import SseSeal.PositionTags

/-! A session of reads, writes and insertions of nodes against the same accesses to a plain map
from ids to nodes. The session works on its cache, and its end writes the nodes back with new
tags. -/
namespace CachedAccess

open Bytes Objects StateExcept StringCipher OramAccessController ClientCache OdictClient
open ClientSession PositionTags

/-- An operation on a node. The data that a READ is given is overwritten by the result. -/
inductive NodeAccess where
  | read (id : ℤ) (data : Node)
  | write (node : Node)
  | insert (node : Node)

abbrev NodeMap := ℤ → Option Node

section Session

variable (codec : Codec Node)

def NodeAccess.operation : NodeAccess → OdictOperation
  | read id data => ⟨id, codec.serialize data, .read⟩
  | write node => ⟨node.id, codec.serialize node, .write⟩
  | insert node => ⟨node.id, codec.serialize node, .insert⟩

/-- `ODS_access` on several operations, with the data of each afterwards. -/
def odsAccessAll : List NodeAccess → ClientM (List Str)
  | [] => return []
  | a :: accesses => do
    let data ← odsAccess codec (a.operation codec)
    return data :: (← odsAccessAll accesses)

def session (padVal : ℤ) (accesses : List NodeAccess) : ClientM (List Str) := do
  odsStart
  let results ← odsAccessAll codec accesses
  odsFinalize codec padVal
  return results

end Session

/-- The node that an operation gives, and the map after it. -/
def NodeAccess.direct : NodeAccess → NodeMap → Option Node × NodeMap
  | read id _, m => (m id, m)
  | write node, m => (some node, Function.update m node.id (some node))
  | insert node, m => (some node, Function.update m node.id (some node))

def directAll : List NodeAccess → NodeMap → List (Option Node) × NodeMap
  | [], m => ([], m)
  | a :: accesses, m =>
    ((a.direct m).1 :: (directAll accesses (a.direct m).2).1, (directAll accesses (a.direct m).2).2)

def NodeAccess.Allowed (m : NodeMap) : NodeAccess → Prop
  | read id _ => m id ≠ none
  | write node => m node.id ≠ none ∧ Valid node.id node
  | insert node => Valid node.id node

def AllAllowed : List NodeAccess → NodeMap → Prop
  | [], _ => True
  | a :: accesses, m => a.Allowed m ∧ AllAllowed accesses (a.direct m).2

/-- A node without its tags, which the end of a session rewrites. -/
def content (n : Node) : Node :=
  { n with posTag := 0, oldTag := 0, childrenPos := (⟨0, 0⟩, ⟨0, 0⟩) }

def Agree (V m : NodeMap) : Prop := ∀ i, (V i).map content = (m i).map content

@[simp] theorem content_clean (n : Node) : content (clean n) = content n := rfl

@[simp] theorem content_tagged (tags : ℤ → ℤ) (n : Node) : content (tagged tags n) = content n :=
  rfl

variable {codec : Codec Node} {c : Client} {V m : NodeMap} {id : ℤ} {n : Node}

theorem Agree.update (h : Agree V m) (n : Node) :
    Agree (Function.update V id (some (clean n))) (Function.update m id (some n)) := by
  intro i
  by_cases hi : i = id
  · subst hi
    rw [Function.update_self, Function.update_self]
    rfl
  · rw [Function.update_of_ne hi, Function.update_of_ne hi]
    exact h i

theorem Agree.exists (h : Agree V m) (hm : m id ≠ none) :
    ∃ n, V id = some n ∧ (m id).map content = some (content n) := by
  obtain ⟨k, hk⟩ := Option.ne_none_iff_exists'.mp hm
  have hid := h id
  rw [hk] at hid
  obtain ⟨n, hn, heq⟩ := Option.map_eq_some_iff.mp hid
  refine ⟨n, hn, ?_⟩
  rw [hk, Option.map_some, heq]

theorem Agree.settled (h : Agree V m) (tags : ℤ → ℤ) : Agree (settled tags c V) m := by
  intro i
  rw [ClientSession.settled]
  split
  · rw [Option.map_map]
    exact h i
  · exact h i

/-- The data of an operation afterwards is a node with the content that the plain map gives. -/
def Gives (codec : Codec Node) (data : Str) (n : Option Node) : Prop :=
  ∃ r, data = codec.serialize r ∧ n.map content = some (content r)

theorem access_returns {a : NodeAccess} (h : Shows codec c V) (hm : Agree V m)
    (ha : a.Allowed m) : Returns (odsAccess codec (a.operation codec)) c fun data c' =>
      Gives codec data (a.direct m).1 ∧ ∃ V', Shows codec c' V' ∧ Agree V' (a.direct m).2 := by
  cases a with
  | read id data =>
    obtain ⟨n, hn, hcontent⟩ := hm.exists ha
    by_cases hc : Cached c id
    · obtain ⟨r, hr⟩ := Option.ne_none_iff_exists'.mp hc
      apply (odsRead_hit h hr data).imp
      intro _ c' hpost
      obtain ⟨rfl, rfl⟩ := hpost
      rw [h.cached id r hr] at hn
      cases hn
      exact ⟨⟨r, rfl, hcontent⟩, V, (h.lru _).congr rfl rfl rfl, hm⟩
    · apply (odsRead_miss h hn (not_not.mp hc) data).imp
      intro _ c' hpost
      obtain ⟨r, rfl, rfl, _, hs, _⟩ := hpost
      exact ⟨⟨r, rfl, hcontent⟩, V, hs, hm⟩
  | write node =>
    obtain ⟨hstored, hv⟩ := ha
    obtain ⟨k, hk, _⟩ := hm.exists hstored
    apply (odsWrite_returns h hv (by simp [hk])).imp
    intro _ c' hpost
    obtain ⟨rfl, hev, _⟩ := hpost
    exact ⟨⟨node, rfl, rfl⟩, _, hev.shows', hm.update node⟩
  | insert node =>
    apply (odsInsert_returns h ha).imp
    intro _ c' hpost
    obtain ⟨rfl, hev, _⟩ := hpost
    exact ⟨⟨node, rfl, rfl⟩, _, hev.shows', hm.update node⟩

theorem accessAll_returns {accesses : List NodeAccess} (h : Shows codec c V) (hm : Agree V m)
    (ha : AllAllowed accesses m) : Returns (odsAccessAll codec accesses) c fun results c' =>
      List.Forall₂ (Gives codec) results (directAll accesses m).1 ∧
        ∃ V', Shows codec c' V' ∧ Agree V' (directAll accesses m).2 := by
  induction accesses generalizing c V m with
  | nil => exact returns_pure ⟨.nil, V, h, hm⟩
  | cons a accesses ih =>
    apply (access_returns h hm ha.1).bind
    intro data c₁ hpost
    obtain ⟨hdata, V₁, h₁, hm₁⟩ := hpost
    apply (ih h₁ hm₁ ha.2).bind
    intro results c₂ hpost
    obtain ⟨hresults, hlast⟩ := hpost
    exact returns_pure ⟨.cons hdata hresults, hlast⟩

/-- A client between sessions: its cache is empty, and its memory holds the nodes of the map,
encrypted. -/
structure Holds (codec : Codec Node) (c : Client) (V : NodeMap) : Prop where
  shows' : Shows codec c V
  nothing_cached : c.cache.cacheItems = []

theorem Holds.not_cached (h : Holds codec c V) (i : ℤ) : ¬ Cached c i := by
  simp [Cached, find?_eq_none, h.nothing_cached]

/-- A session reads what the plain map gives, and stores the nodes of the map it leaves. -/
theorem session_refines (padVal : ℤ) {accesses : List NodeAccess} (h : Holds codec c V)
    (ha : AllAllowed accesses V) :
    ∃ results c' V', (session codec padVal accesses).run c = .ok results c' ∧
      List.Forall₂ (Gives codec) results (directAll accesses V).1 ∧
      Holds codec c' V' ∧ Agree V' (directAll accesses V).2 ∧
      ∀ i n, (directAll accesses V).2 i = some n →
        ∃ r, storedNode codec c' i = some r ∧ content r = content n := by
  have hreturns : Returns (session codec padVal accesses) c fun results c' =>
      List.Forall₂ (Gives codec) results (directAll accesses V).1 ∧
        ∃ V', Holds codec c' V' ∧ Agree V' (directAll accesses V).2 := by
    apply returns_modify.bind
    intro _ c₁ hstart
    subst hstart
    apply (accessAll_returns (h.shows'.clear h.nothing_cached) (fun _ => rfl) ha).bind
    intro results c₂ hpost
    obtain ⟨hresults, V₂, h₂, hm₂⟩ := hpost
    apply (odsFinalize_returns h₂ padVal).bind
    intro _ c₃ hpost
    obtain ⟨tags, hfin⟩ := hpost
    exact returns_pure ⟨hresults, _, ⟨hfin.shows', hfin.nothing_cached⟩, hm₂.settled tags⟩
  obtain ⟨results, c', hrun, hresults, V', hholds, hagree⟩ := hreturns
  refine ⟨results, c', V', hrun, hresults, hholds, hagree, ?_⟩
  intro i n hn
  have hne : (directAll accesses V).2 i ≠ none := by simp [hn]
  obtain ⟨k, hk, hcontent⟩ := hagree.exists hne
  obtain ⟨r, hr, rfl⟩ := storedNode_eq hholds.shows' hk (hholds.not_cached i)
  rw [hn] at hcontent
  exact ⟨r, hr, (Option.some.inj hcontent).symm⟩

def sampleNodes : Node × Node := (.fresh 1 [97] [1], .fresh 1 [97] [2])

def sampleAccesses : List NodeAccess :=
  [.insert sampleNodes.1, .read 1 (.ofTag 1 (-1)), .write sampleNodes.2, .read 1 (.ofTag 1 (-1))]

theorem session_refines_sample :
    ∃ (o : OramReadPathEviction.Oram) (c : Client) (results : List Str) (c' : Client),
      OramReadPathEviction.construct.run (OramReadPathEviction.blank 1 2 .new ⟨0, fun k => k, 0⟩) =
        .ok ⟨⟩ o ∧
      (initDummyData ObjectArchive.nodeCodec).run
        (Client.fresh Dictionary.sampleKey .newestFirst o) = .ok ⟨⟩ c ∧
      (session ObjectArchive.nodeCodec 3 sampleAccesses).run c = .ok results c' ∧
      Gives ObjectArchive.nodeCodec (results.getD 3 []) (some sampleNodes.2) ∧
      ∃ r, storedNode ObjectArchive.nodeCodec c' 1 = some r ∧
        content r = content sampleNodes.2 := by
  have hbuild : ∃ o, OramReadPathEviction.construct.run
      (OramReadPathEviction.blank 1 2 .new ⟨0, fun k => k, 0⟩) = .ok ⟨⟩ o := ⟨_, rfl⟩
  obtain ⟨o, hbuild⟩ := hbuild
  have hfresh : Returns (initDummyData ObjectArchive.nodeCodec)
      (Client.fresh Dictionary.sampleKey .newestFirst o) _ :=
    Dictionary.fresh_idle (fun _ => rfl) hbuild .newestFirst Dictionary.sampleKey_length
  obtain ⟨_, c, hinit, ⟨V, hidle⟩, _⟩ := hfresh
  have hholds : Holds ObjectArchive.nodeCodec c V := ⟨hidle.shows', hidle.nothing_cached⟩
  have hvalid : ∀ b : UInt8, Valid 1 (Node.fresh 1 [97] [b]) := by
    intro b
    refine ⟨rfl, by decide, by decide, ?_, ?_⟩ <;> simp [Node.fresh, Storable, blockBytes]
  have hallowed : AllAllowed sampleAccesses V := by
    refine ⟨hvalid 1, ?_, ⟨?_, hvalid 2⟩, ?_, trivial⟩ <;>
      simp [NodeAccess.Allowed, NodeAccess.direct, sampleNodes, Node.fresh]
  obtain ⟨results, c', V', hrun, hresults, _, _, hstored⟩ := session_refines 3 hholds hallowed
  refine ⟨o, c, results, c', hbuild, hinit, hrun, ?_, ?_⟩
  · rcases hresults with _ | ⟨_, _ | ⟨_, _ | ⟨_, _ | ⟨hlast, _⟩⟩⟩⟩
    obtain ⟨r, hr, hcontent⟩ := hlast
    refine ⟨r, hr, ?_⟩
    simpa [NodeAccess.direct, sampleNodes, Node.fresh] using hcontent
  · apply hstored 1
    simp [sampleAccesses, directAll, NodeAccess.direct, sampleNodes, Node.fresh]

end CachedAccess
