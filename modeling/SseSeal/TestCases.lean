import SseSeal.BatchFind
import SseSeal.FindPadding

/-! `add_node`, which inserts test cases and searches for them. Run again, it makes nodes with new
ids for old keys, of which the dictionary keeps the first. -/
namespace TestCases

open Bytes Objects StateExcept StringCipher IndexStrings SortedMap AvlTree BinaryTree
open OramReadPathEviction OramAccessController ClientCache OdictClient ClientSession ClientTree
open BalancedDictionary NodeRemoval RemovalRuns BatchFind
open FindPadding (numbered numberNodes numberNodes_returns insertNodes_keeps findPriv_keeps
  odsFinalize_keeps numbered_append length_numbered insertable_numbered)
open Dictionary hiding inserted

def testKeys (number : ℤ) : List Str := (List.range number.toNat).map toDecimal

/-- The keys, each with the random string that `create_test_cases` draws for it. -/
def testItems (number : ℤ) (information : ℕ → Str) : List (Str × Str) :=
  (List.range number.toNat).map fun i => (toDecimal i, information i)

section Operations

variable (codec : Codec Node) (fuel : ℕ) (insertPad findPad : ℤ → ℤ)

/-- `add_node`, with what it logs as its result. -/
def addNode (number : ℤ) (information : ℕ → Str) : BatchM (Dict ℤ (Option Node)) := do
  let nodes ← onClient (numberNodes (testItems number information))
  onClient (insertNodes codec fuel insertPad nodes)
  findKeys codec fuel findPad (testKeys number)

def addNodes : List (ℤ × (ℕ → Str)) → BatchM (List (Dict ℤ (Option Node)))
  | [] => return []
  | e :: cases => do
    let ans ← addNode codec fuel insertPad findPad e.1 e.2
    let answers ← addNodes cases
    return ans :: answers

end Operations

def itemsOf (cases : List (ℤ × (ℕ → Str))) : List (Str × Str) :=
  cases.flatMap fun e => testItems e.1 e.2

def firstInformation (cases : List (ℤ × (ℕ → Str))) (i : ℕ) : Option Str :=
  (cases.find? fun e => i < e.1.toNat).map fun e => e.2 i

variable {codec : Codec Node} {fuel : ℕ} {c : Client} {V : ℤ → Option Node}
  {items : List (Str × Str)} {number : ℤ} {information : ℕ → Str} {i : ℕ}
  {t : BinaryTree Entry} {P : ℤ → Prop}

theorem leadingInt_toDecimal (hi : i < 2 ^ 31) : leadingInt (toDecimal i) = some (i : ℤ) := by
  rw [leadingInt, signedValue_toDecimal, Option.filter_some, if_pos]
  simp only [decide_eq_true_eq]
  omega

theorem entryNumber_toDecimal (hi : i < 2 ^ 31) : entryNumber (toDecimal i) = i := by
  rw [entryNumber, leadingInt_toDecimal hi, Option.getD_some]

theorem listed_testKeys (hnumber : number < 2 ^ 31) (hi : i < number.toNat) :
    (listed V t (testKeys number) .empty).find? (i : ℤ) = some (foundNode V t (toDecimal i)) := by
  have hkey : toDecimal i ∈ testKeys number :=
    List.mem_map_of_mem (List.mem_range.mpr hi)
  rw [← entryNumber_toDecimal (by omega : i < 2 ^ 31)]
  refine Dict.find?_foldl_alter hkey fun k hk heq => ?_
  obtain ⟨j, hj, rfl⟩ := List.mem_map.mp hk
  have hj := List.mem_range.mp hj
  rw [entryNumber_toDecimal (by omega), entryNumber_toDecimal (by omega)] at heq
  rw [Int.ofNat_inj.mp heq]

theorem foundNode_of_lookup (h : Carries V P t) {key : Str} {item : Item}
    (hlookup : lookup key t = some item) :
    ∃ n, foundNode V t key = some n ∧ n.key = key ∧ n.data = item.data := by
  have hstored : ∃ n, V item.id = some n ∧ n.key = key ∧ n.data = item.data := by
    induction t with
    | nil => cases hlookup
    | node e l r hl hr =>
      obtain ⟨⟨n, hn, hdesc⟩, _, htl, htr⟩ := h
      rw [lookup] at hlookup
      split at hlookup
      · rename_i heq
        cases hlookup
        exact ⟨n, hn, hdesc.key.trans heq, hdesc.data⟩
      split at hlookup
      · exact hr htr hlookup
      · exact hl htl hlookup
  obtain ⟨n, hn, hkey, hdata⟩ := hstored
  refine ⟨fetched n, ?_, hkey, hdata⟩
  rw [foundNode, hlookup, Option.bind_some, hn, Option.map_some]

theorem onClient_keeps {α : Type} {x : ClientM α} (hx : Keeps Client.nodeCount x) :
    Keeps Client.nodeCount (BatchFind.onClient x) := by
  intro c a c' hrun
  change focus id (fun c _ => c) BatchError.client x c = _ at hrun
  simp only [focus, id] at hrun
  split at hrun
  · rename_i hx'
    cases hrun
    exact hx _ _ _ hx'
  · cases hrun

theorem findKeys_keeps (fuel : ℕ) (pad : ℤ → ℤ) (keys : List Str) :
    Keeps Client.nodeCount (findKeys codec fuel pad keys) := by
  have hloop : ∀ ans, Keeps Client.nodeCount (findEach codec fuel keys ans) := by
    induction keys with
    | nil => exact fun ans => keeps_pure _
    | cons key keys ih =>
      intro ans
      apply keeps_get.bind
      intro c
      apply (onClient_keeps (findPriv_keeps _ _ _)).bind
      intro node
      refine .bind ?_ fun i => ih _
      apply (keeps_orThrow _ _).bind
      intro n
      split
      · exact keeps_pure _
      · exact keeps_throw _
  have hstart : Keeps Client.nodeCount odsStart := keeps_modify fun _ => rfl
  apply (onClient_keeps hstart).bind
  intro _
  apply (hloop _).bind
  intro ans
  apply keeps_get.bind
  intro c
  exact (onClient_keeps (odsFinalize_keeps _)).bind fun _ => keeps_pure _

structure Tested (codec : Codec Node) (items : List (Str × Str)) (c : Client) : Prop where
  resting : ∃ V, Resting codec (Dictionary.treeOf (numbered 1 items)) (cleared c) V
  nodeCount : c.nodeCount = 1 + items.length

theorem sound_numbered (hins : Insertable (numbered 1 items)) :
    Sound (numbered 1 items) (Dictionary.treeOf (numbered 1 items)) := by
  have hclear : ∀ key, Call.insert (numbered 1 items) = .remove key →
      Clear .changed key .nil := nofun
  have hnodes : Insertable ([] ++ (Call.insert (numbered 1 items)).nodes) := hins
  exact (call_sound Sound.nil hnodes hclear).1

theorem insertNodes_tested (pad : ℤ → ℤ) {later : List (Str × Str)} (h : Tested codec items c)
    (hins : Insertable (numbered 1 (items ++ later)))
    (hf : (items ++ later).length < fuel) :
    Returns (insertNodes codec fuel pad (numbered c.nodeCount later))
      { c with nodeCount := c.nodeCount + later.length } fun _ c' =>
        Tested codec (items ++ later) c' := by
  obtain ⟨⟨V, hrest⟩, hcount⟩ := h
  have hsplit : numbered 1 (items ++ later) = numbered 1 items ++ numbered c.nodeCount later := by
    rw [numbered_append, hcount]
  have hrest' : Resting codec (Dictionary.treeOf (numbered 1 items))
      (cleared { c with nodeCount := c.nodeCount + later.length }) V :=
    ⟨⟨hrest.shows'.congr rfl rfl rfl, hrest.carries, hrest.rootId⟩, hrest.nothing_cached⟩
  have hfirst : Insertable (numbered 1 items) := by
    rw [hsplit] at hins
    exact hins.sub (List.sublist_append_left _ _)
  have hlen : (numbered 1 items ++ numbered c.nodeCount later).length < fuel := by
    rw [← hsplit, length_numbered]
    exact hf
  have hclear : ∀ key, Call.insert (numbered c.nodeCount later) = .remove key →
      Clear .changed key (Dictionary.treeOf (numbered 1 items)) := nofun
  have hreturns : Returns ((Call.insert (numbered c.nodeCount later)).run codec .changed fuel pad)
      _ _ := call_returns hrest' (sound_numbered hfirst) (hsplit ▸ hins) hlen hclear
  obtain ⟨_, c', hrun, ⟨V', hafter⟩, _⟩ := hreturns
  rw [run_cleared] at hrun
  obtain ⟨_, c₁, hinsert, hpure⟩ := bind_ok hrun
  cases hpure
  refine ⟨⟨⟩, c', hinsert, ⟨V', ?_⟩, ?_⟩
  · have htree : Dictionary.treeOf (numbered 1 (items ++ later)) =
        (Call.insert (numbered c.nodeCount later)).tree
          (Dictionary.treeOf (numbered 1 items)) := by
      rw [hsplit, Dictionary.treeOf, List.foldl_append]
      rfl
    rw [htree]
    exact resting_cleared hafter
  · rw [insertNodes_keeps fuel pad _ _ _ _ hinsert]
    change c.nodeCount + _ = _
    rw [hcount, List.length_append, Nat.cast_add, add_assoc]

theorem firstData_numbered (start : ℤ) (items : List (Str × Str)) (key : Str) :
    firstData (numbered start items) key = (items.find? (·.1 = key)).map Prod.snd := by
  induction items generalizing start with
  | nil => rfl
  | cons e items ih =>
    rw [numbered, firstData]
    by_cases heq : e.1 = key
    · have hfresh : (Node.fresh start e.1 e.2).key = key := heq
      rw [List.find?_cons_of_pos (by simpa using hfresh),
        List.find?_cons_of_pos (by simpa using heq)]
      rfl
    · have hfresh : (Node.fresh start e.1 e.2).key ≠ key := heq
      rw [List.find?_cons_of_neg (by simpa using hfresh),
        List.find?_cons_of_neg (by simpa using heq)]
      exact ih (start + 1)

theorem addNode_returns (insertPad findPad : ℤ → ℤ) (h : Tested codec items c)
    (hins : Insertable (numbered 1 (items ++ testItems number information)))
    (hf : (items ++ testItems number information).length < fuel) (hnumber : number < 2 ^ 31) :
    Returns (addNode codec fuel insertPad findPad number information) c fun ans c' =>
      Tested codec (items ++ testItems number information) c' ∧
        ∀ i, i < number.toNat → ∃ node, ans.find? (i : ℤ) = some (some node) ∧
          node.key = toDecimal i ∧ ((items ++ testItems number information).find?
            (·.1 = toDecimal i)).map Prod.snd = some node.data := by
  apply (onClient_returns (numberNodes_returns _ c)).bind
  intro nodes c₁ hpost
  obtain ⟨rfl, rfl⟩ := hpost
  apply (onClient_returns (insertNodes_tested insertPad h hins hf)).bind
  intro _ c₂ htested
  obtain ⟨⟨V, hrest⟩, hcount⟩ := htested
  have hlen : (numbered 1 (items ++ testItems number information)).length < fuel := by
    rwa [length_numbered]
  have hends := findKeys_ends hrest (sound_numbered hins) hlen findPad (testKeys number)
  rcases hends with ⟨ans, c₃, hrun, ⟨rfl, _⟩, hafter⟩ | ⟨_, _, _, ⟨key, hkey, hnone⟩, _⟩
  · refine ⟨_, c₃, hrun, ⟨hafter, ?_⟩, ?_⟩
    · rw [findKeys_keeps fuel findPad _ _ _ _ hrun, hcount]
    · intro i hi
      have hdata := lookup_treeOf (numbered 1 (items ++ testItems number information)) (toDecimal i)
      rw [firstData_numbered] at hdata
      have hmem : (toDecimal i, information i) ∈ items ++ testItems number information := by
        apply List.mem_append_right
        exact List.mem_map_of_mem (List.mem_range.mpr hi)
      cases hlookup : lookup (toDecimal i)
          (Dictionary.treeOf (numbered 1 (items ++ testItems number information))) with
      | none =>
        rw [hlookup, Option.map_none, eq_comm, Option.map_eq_none_iff, List.find?_eq_none] at hdata
        exact absurd (decide_eq_true rfl) (hdata _ hmem)
      | some item =>
        obtain ⟨n, hn, hnkey, hndata⟩ := foundNode_of_lookup hrest.carries hlookup
        refine ⟨n, ?_, hnkey, ?_⟩
        · rw [listed_testKeys hnumber hi, hn]
        · rw [← hdata, hlookup, Option.map_some, hndata]
  · obtain ⟨i, hi, rfl⟩ := List.mem_map.mp hkey
    have hi := List.mem_range.mp hi
    rw [leadingInt_toDecimal (by omega)] at hnone
    cases hnone

/-- The first item with the key of a test case is that of the first call that has it. -/
theorem find_itemsOf (cases : List (ℤ × (ℕ → Str))) (i : ℕ) :
    ((itemsOf cases).find? (·.1 = toDecimal i)).map Prod.snd = firstInformation cases i := by
  induction cases with
  | nil => rfl
  | cons e cases ih =>
    rw [itemsOf, List.flatMap_cons, ← itemsOf, List.find?_append, firstInformation]
    by_cases hi : i < e.1.toNat
    · have hfind : (testItems e.1 e.2).find? (·.1 = toDecimal i) = some (toDecimal i, e.2 i) := by
        have hrange : (List.range e.1.toNat).find? (fun j => toDecimal j = toDecimal i) =
            some i := by
          refine List.find?_range_eq_some.mpr ⟨by simp, List.mem_range.mpr hi, ?_⟩
          intro j hj
          have hne : toDecimal j ≠ toDecimal i := fun heq => hj.ne (toDecimal_injective heq)
          simpa using hne
        rw [testItems, List.find?_map]
        exact congrArg (Option.map _) hrange
      rw [hfind, List.find?_cons_of_pos (by simpa using hi)]
      rfl
    · have hnone : (testItems e.1 e.2).find? (·.1 = toDecimal i) = none := by
        rw [List.find?_eq_none]
        intro item hitem hkey
        obtain ⟨j, hj, rfl⟩ := List.mem_map.mp hitem
        have hj := List.mem_range.mp hj
        have heq : j = i := toDecimal_injective (of_decide_eq_true hkey)
        omega
      rw [hnone, Option.none_or, ih, List.find?_cons_of_neg (by simpa using hi)]
      rfl

theorem addNodes_returns (insertPad findPad : ℤ → ℤ) {earlier cases : List (ℤ × (ℕ → Str))}
    (h : Tested codec (itemsOf earlier) c)
    (hins : Insertable (numbered 1 (itemsOf (earlier ++ cases))))
    (hf : (itemsOf (earlier ++ cases)).length < fuel) (hint : ∀ e ∈ cases, e.1 < 2 ^ 31) :
    Returns (addNodes codec fuel insertPad findPad cases) c fun answers c' =>
      Tested codec (itemsOf (earlier ++ cases)) c' ∧ answers.length = cases.length ∧
        ∀ (j : ℕ) (e : ℤ × (ℕ → Str)) (i : ℕ), cases[j]? = some e → i < e.1.toNat →
          ∃ ans node, answers[j]? = some ans ∧ ans.find? (i : ℤ) = some (some node) ∧
            node.key = toDecimal i ∧ firstInformation (earlier ++ cases) i = some node.data := by
  induction cases generalizing c earlier with
  | nil =>
    rw [List.append_nil] at *
    exact returns_pure ⟨h, rfl, nofun⟩
  | cons e cases ih =>
    have hsplit : itemsOf (earlier ++ e :: cases) =
        (itemsOf earlier ++ testItems e.1 e.2) ++ itemsOf cases := by
      rw [itemsOf, List.flatMap_append, List.flatMap_cons, List.append_assoc]
      rfl
    have hnext : itemsOf earlier ++ testItems e.1 e.2 = itemsOf (earlier ++ [e]) := by
      rw [itemsOf, itemsOf, List.flatMap_append, List.flatMap_singleton]
    have hone : Insertable (numbered 1 (itemsOf earlier ++ testItems e.1 e.2)) := by
      rw [hsplit, numbered_append 1 (itemsOf earlier ++ testItems e.1 e.2)] at hins
      exact hins.sub (List.sublist_append_left _ _)
    have hlen : (itemsOf earlier ++ testItems e.1 e.2).length < fuel := by
      rw [hsplit, List.length_append] at hf
      omega
    apply (addNode_returns insertPad findPad h hone hlen (hint e List.mem_cons_self)).bind
    intro ans c₁ hpost
    obtain ⟨htested, hans⟩ := hpost
    rw [hnext] at htested hans
    rw [List.append_cons] at hins hf ⊢
    apply (ih htested hins hf fun e' he => hint e' (List.mem_cons_of_mem e he)).bind
    intro answers c₂ hpost
    obtain ⟨htested₂, hlength, hanswers⟩ := hpost
    refine returns_pure ⟨htested₂, congrArg Nat.succ hlength, ?_⟩
    intro j e' i hj hi
    cases j with
    | zero =>
      cases hj
      obtain ⟨node, hnode, hkey, hdata⟩ := hans i hi
      refine ⟨ans, node, rfl, hnode, hkey, ?_⟩
      rw [find_itemsOf] at hdata
      rw [firstInformation, List.find?_append]
      rw [firstInformation, Option.map_eq_some_iff] at hdata
      obtain ⟨first, hfirst, heq⟩ := hdata
      rw [hfirst, Option.some_or, Option.map_some, heq]
    | succ j => exact hanswers j e' i hj hi

section Serve

variable {bucketSize blockNumber : ℕ} {storage : Storage} {randGen : RandomForOram} {o : Oram}
  {cases : List (ℤ × (ℕ → Str))}

/-- On a client with a new oblivious memory, each of any number of calls of `add_node` returns and
finds a node for each of its test cases, with what the first call that has it drew for it. -/
theorem test_cases_found (codec : Codec Node) (insertPad findPad : ℤ → ℤ)
    (hs : ∀ k, storage.fails k = false)
    (hbuild : construct.run (blank bucketSize blockNumber storage randGen) = .ok ⟨⟩ o)
    (order : HashOrder) {secretKey : Str} (hkey : 16 ≤ secretKey.length)
    (hint : ∀ e ∈ cases, e.1 < 2 ^ 31) (hlen : ((itemsOf cases).length : ℤ) + 1 ≤ 2 ^ 31)
    (hst : ∀ e ∈ cases, ∀ i, Storable (e.2 i)) (hf : (itemsOf cases).length < fuel) :
    ∃ c₀ answers c, (initDummyData codec).run (Client.fresh secretKey order o) = .ok ⟨⟩ c₀ ∧
      (addNodes codec fuel insertPad findPad cases).run c₀ = .ok answers c ∧
      c.nodeCount = 1 + (itemsOf cases).length ∧
      ∀ (j : ℕ) (e : ℤ × (ℕ → Str)) (i : ℕ), cases[j]? = some e → i < e.1.toNat →
        ∃ ans node, answers[j]? = some ans ∧ ans.find? (i : ℤ) = some (some node) ∧
          node.key = toDecimal i ∧ firstInformation cases i = some node.data := by
  have hinitial : Returns (initDummyData codec) (Client.fresh secretKey order o) _ :=
    Dictionary.fresh_idle hs hbuild order hkey
  obtain ⟨_, c₀, hinit, ⟨V, hidle⟩, hcount⟩ := hinitial
  have htested : Tested codec (itemsOf []) c₀ := by
    refine ⟨⟨V, resting_cleared ⟨⟨hidle.shows', hidle.carries, hidle.rootId⟩,
      hidle.nothing_cached⟩⟩, ?_⟩
    rw [hcount]
    rfl
  have hins : Insertable (numbered 1 (itemsOf cases)) := by
    refine insertable_numbered ?_ hlen
    intro item hitem
    obtain ⟨e, he, hin⟩ := List.mem_flatMap.mp hitem
    obtain ⟨i, hi, rfl⟩ := List.mem_map.mp hin
    have hi := List.mem_range.mp hi
    have hshort : (toDecimal i).length ≤ 10 := by
      have hbound := hint e he
      exact toDecimal_length (by omega)
    refine ⟨?_, hst e he i⟩
    change (toDecimal i).length + blockBytes < 2 ^ 31
    rw [blockBytes]
    omega
  have hreturns : Returns (addNodes codec fuel insertPad findPad cases) c₀ _ :=
    addNodes_returns insertPad findPad htested hins hf hint
  obtain ⟨answers, c, hrun, htested, _, hfound⟩ := hreturns
  exact ⟨c₀, answers, c, hinit, hrun, htested.nodeCount, hfound⟩

def sampleCases : List (ℤ × (ℕ → Str)) := [(2, fun _ => [97]), (3, fun _ => [98])]

theorem test_cases_found_sample : ∃ (o : Oram) (c₀ c : Client)
    (answers : List (Dict ℤ (Option Node))) (ans : Dict ℤ (Option Node)) (node : Node),
    construct.run (blank 1 2 .new ⟨0, fun k => k, 0⟩) = .ok ⟨⟩ o ∧
    (initDummyData ObjectArchive.nodeCodec).run
      (Client.fresh Dictionary.sampleKey .newestFirst o) = .ok ⟨⟩ c₀ ∧
    (addNodes ObjectArchive.nodeCodec 6 id id sampleCases).run c₀ = .ok answers c ∧
    c.nodeCount = 6 ∧ answers[1]? = some ans ∧ ans.find? 1 = some (some node) ∧
    node.key = toDecimal 1 ∧ node.data = [97] := by
  obtain ⟨o, hbuild⟩ := construct_small
  have hint : ∀ e ∈ sampleCases, e.1 < 2 ^ 31 := by
    simp [sampleCases]
  have hst : ∀ e ∈ sampleCases, ∀ i, Storable (e.2 i) := by
    simp [sampleCases, Storable, blockBytes]
  have hf : (itemsOf sampleCases).length < 6 := by decide
  obtain ⟨c₀, answers, c, hinit, hrun, hcount, hfound⟩ := test_cases_found ObjectArchive.nodeCodec
    id id (fun _ => rfl) hbuild .newestFirst Dictionary.sampleKey_length hint (by decide) hst hf
  obtain ⟨ans, node, hans, hnode, hkey, hdata⟩ := hfound 1 (3, fun _ => [98]) 1 rfl (by decide)
  refine ⟨o, c₀, c, answers, ans, node, hbuild, hinit, hrun, hcount, hans, hnode, hkey, ?_⟩
  exact (Option.some.inj hdata).symm

end Serve

end TestCases
