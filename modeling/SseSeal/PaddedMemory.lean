import SseSeal.ObjectArchive
import SseSeal.Padding
import SseSeal.StringCipher

/-! What `adj_padding` makes of the memory: the pairs that were there stay, and a keyword that
was there has one entry more than its recorded count. -/
namespace PaddedMemory

open Bytes ComputedLog Objects ObjectArchive StringCipher SortedMap Padding

structure Short (d : Document) : Prop where
  id : d.id < 2 ^ 32
  keywords : d.keywords.length ≤ 2
  length : ∀ k ∈ d.keywords, k.length ≤ 16

theorem Short.storable {d : Document} (h : Short d) :
    Storable (documentCodec.serialize d) := by
  have hvalid : documentFormat.Valid d := by
    refine ⟨h.id, ?_, ?_⟩
    · have hkeywords := h.keywords
      change d.keywords.length < 256 ^ 8 - 1
      omega
    · intro k hk
      have hlen := h.length k hk
      refine ⟨?_, fun _ _ => trivial⟩
      omega
  have hsum : (d.keywords.map fun k => 8 + k.length).sum ≤ d.keywords.length * 24 := by
    have hle := List.sum_le_card_nsmul (d.keywords.map fun k => 8 + k.length) 24 (by
      intro n hn
      obtain ⟨k, hk, rfl⟩ := List.mem_map.mp hn
      have hlen := h.length k hk
      omega)
    simpa using hle
  have hkeywords := h.keywords
  rw [Storable, documentCodec_length hvalid, blockBytes]
  omega

def keys (memory : Memory) : List Str := memory.map Prod.fst

@[simp] theorem keys_append (m₁ m₂ : Memory) : keys (m₁ ++ m₂) = keys m₁ ++ keys m₂ :=
  List.map_append

variable {log : CeilLog} {x : ℕ} {secretKey : Str} {s t : Padded} {memory added : Memory} {w : Str}

theorem dummyDocument_short {size : ℕ} {first : Str} {rest : List Str} {e : Entropy}
    (hlen : rest.length ≤ 2) (hrest : ∀ k ∈ rest, k.length ≤ 16) :
    Short (dummyDocument size (first :: rest) e).1 :=
  ⟨Nat.mod_lt _ (by decide), hlen, hrest⟩

theorem pushDummy_memory (keyword : Str) (s : Padded) : ∃ d, Short d ∧
    (pushDummy keyword s).memory = s.memory ++ [(keyword, d)] := by
  have hshort : Short
      (dummyDocument s.memory.length [ofAscii "ok", ofAscii "but"] s.entropy).1 :=
    dummyDocument_short (by decide) (by decide)
  exact ⟨_, hshort, rfl⟩

theorem pushDummies_memory (keyword : Str) (n : ℕ) (s : Padded) : ∃ ds : List Document,
    ds.length = n ∧ (∀ d ∈ ds, Short d) ∧
      ((pushDummy keyword)^[n] s).memory = s.memory ++ ds.map fun d => (keyword, d) := by
  induction n generalizing s with
  | zero => exact ⟨[], rfl, by simp, by simp⟩
  | succ n ih =>
    obtain ⟨d, hd, hpush⟩ := pushDummy_memory keyword s
    obtain ⟨ds, hlen, hds, hrest⟩ := ih (pushDummy keyword s)
    refine ⟨d :: ds, by simp [hlen], ?_, ?_⟩
    · intro b hb
      rcases List.mem_cons.mp hb with rfl | hb
      · exact hd
      · exact hds b hb
    · rw [Function.iterate_succ_apply, hrest, hpush]
      simp

theorem randomString_length (e : Entropy) (len : ℕ) : (e.randomString len).1.length = len := by
  simp [Entropy.randomString]

theorem pushFiller_eq (secretKey : Str) (s : Padded × Dict Str ℕ) :
    ∃ keyword d, keyword.length = 16 ∧ Short d ∧
    (pushFiller secretKey s).1.memory = s.1.memory ++ [(keyword, d)] ∧
    (pushFiller secretKey s).2 = s.2.alter keyword fun v => v.getD 0 + 1 := by
  refine ⟨_, _, randomString_length _ _, dummyDocument_short ?_ ?_, rfl, rfl⟩
  · simp
  · intro k hk
    rcases List.mem_cons.mp hk with rfl | hk
    · simp
    · rw [List.mem_singleton.mp hk]
      simp

theorem padKeywords_memory {entries : List (Str × ℕ)} (hd : (entries.map Prod.fst).Nodup)
    (h : entries.foldlM (padKeyword log x) s = some t) :
    ∃ added, t.memory = s.memory ++ added ∧
      (∀ e ∈ added, e.1 ∈ entries.map Prod.fst ∧ Short e.2) ∧
      ∀ w c, (w, c) ∈ entries → (keys added).count w = paddedSize log x c + 1 - c := by
  induction entries generalizing s with
  | nil =>
    cases h
    exact ⟨[], by simp, by simp, by simp⟩
  | cons entry entries ih =>
    obtain ⟨k, c⟩ := entry
    rw [List.map_cons, List.nodup_cons] at hd
    rw [List.foldlM_cons] at h
    obtain ⟨u, hu, h⟩ := Option.bind_eq_some_iff.mp h
    obtain ⟨n, hn, rfl⟩ := Option.map_eq_some_iff.mp hu
    obtain ⟨_, rfl⟩ := iterations_eq_some hn
    obtain ⟨ds, hlen, hds, hpush⟩ := pushDummies_memory k (paddedSize log x c + 1 - c) s
    obtain ⟨added, hadded, hshort, hcount⟩ := ih hd.2 h
    have hkeys : keys (ds.map fun d => (k, d)) = List.replicate ds.length k := by
      simp [keys, Function.comp_def, List.map_const']
    refine ⟨(ds.map fun d => (k, d)) ++ added, ?_, ?_, ?_⟩
    · rw [hadded, hpush, List.append_assoc]
    · intro e he
      rcases List.mem_append.mp he with he | he
      · obtain ⟨d, hdin, rfl⟩ := List.mem_map.mp he
        exact ⟨List.mem_cons_self, hds d hdin⟩
      · exact ⟨List.mem_cons_of_mem _ (hshort e he).1, (hshort e he).2⟩
    · intro w c' hw
      rw [keys_append, List.count_append, hkeys, hlen, List.count_replicate]
      rcases List.mem_cons.mp hw with heq | hw
      · cases heq
        have hnone : (keys added).count k = 0 := by
          apply List.count_eq_zero.mpr
          intro hin
          obtain ⟨e, he, heq⟩ := List.mem_map.mp hin
          exact hd.1 (heq ▸ (hshort e he).1)
        simp [hnone]
      · have hne : ¬ k = w := by
          rintro rfl
          exact hd.1 (List.mem_map.mpr ⟨_, hw, rfl⟩)
        simp [hne, hcount w c' hw]

structure Aligned (memory : Memory) (padded : Memory) (count : Dict Str ℕ) : Prop where
  added : ∃ added, padded = memory ++ added ∧
    ∀ e ∈ added, (e.1 ∈ keys memory ∨ e.1.length = 16) ∧ Short e.2
  counted : ∀ e ∈ padded, (count.find? e.1).isSome
  bounded : ∀ w c, count.find? w = some c → c ≤ padded.length
  /-- A keyword of the memory has one entry more than it has counted. -/
  extra : ∀ w ∈ keys memory, ∃ c, count.find? w = some c ∧ (keys padded).count w = c + 1

theorem aligned_pushFiller {r : Padded × Dict Str ℕ} (h : Aligned memory r.1.memory r.2) :
    Aligned memory (pushFiller secretKey r).1.memory (pushFiller secretKey r).2 := by
  obtain ⟨k, d, hk, hd, hpush, hcount⟩ := pushFiller_eq secretKey r
  obtain ⟨⟨added, hadded, hnew⟩, hcounted, hbounded, hextra⟩ := h
  rw [hpush, hcount]
  constructor
  · refine ⟨added ++ [(k, d)], ?_, ?_⟩
    · rw [hadded, List.append_assoc]
    · intro e he
      rcases List.mem_append.mp he with he | he
      · exact hnew e he
      · rw [List.mem_singleton.mp he]
        exact ⟨Or.inr hk, hd⟩
  · intro e he
    rw [Dict.find?_alter]
    split
    · rfl
    · rename_i hne
      rcases List.mem_append.mp he with he | he
      · exact hcounted e he
      · rw [List.mem_singleton.mp he] at hne
        exact absurd rfl hne
  · intro w c hc
    rw [List.length_append, List.length_singleton]
    rw [Dict.find?_alter] at hc
    split at hc
    · cases hc
      cases hfind : r.2.find? k with
      | none => simp
      | some v => simpa using hbounded k v hfind
    · exact (hbounded w c hc).trans (Nat.le_succ _)
  · intro w hw
    obtain ⟨c, hc, hkeys⟩ := hextra w hw
    rw [keys_append, List.count_append]
    by_cases heq : w = k
    · subst heq
      refine ⟨c + 1, ?_, ?_⟩
      · rw [Dict.find?_alter_self, hc, Option.getD_some]
      · simp [keys] at hkeys ⊢
        omega
    · refine ⟨c, (Dict.find?_alter_of_ne heq).trans hc, ?_⟩
      simp [keys, Ne.symm heq] at hkeys ⊢
      exact hkeys

theorem aligned_iterate (n : ℕ) {r : Padded × Dict Str ℕ}
    (h : Aligned memory r.1.memory r.2) :
    Aligned memory ((pushFiller secretKey)^[n] r).1.memory ((pushFiller secretKey)^[n] r).2 := by
  induction n generalizing r with
  | zero => exact h
  | succ n ih =>
    rw [Function.iterate_succ_apply]
    exact ih (aligned_pushFiller h)

theorem countTable_find? (memory : Memory) (w : Str) : (countTable memory).find? w =
    if w ∈ keys memory then some ((keys memory).count w) else none := by
  rw [countTable, tally_find?, ← keys]

section FirstLoop

variable {e : Entropy}
  (h : (countTable memory).entries.foldlM (padKeyword log x) ⟨memory, e⟩ = some s)
include h

theorem padKeywords_size (hx : 1 < x) : s.memory.length = keywordSizes log x memory := by
  have hlen := padKeywords_length hx h
  rw [countTable_sum, ← keywordSizes] at hlen
  simp only at hlen
  omega

/-- The first loop leaves every keyword one entry more than the power it is padded to. -/
theorem padKeywords_occurs (hx : 1 < x) (hw : w ∈ keys memory) :
    (keys s.memory).count w = paddedSize log x ((keys memory).count w) + 1 := by
  have hentry : (w, (keys memory).count w) ∈ (countTable memory).entries :=
    Dict.find?_eq_some.mp (by rw [countTable_find?, if_pos hw])
  have hle := le_paddedSize log hx ((keys memory).count w)
  obtain ⟨added, hadded, _, hcount⟩ := padKeywords_memory (countTable memory).nodup_keys h
  rw [hadded, keys_append, List.count_append, hcount w _ hentry]
  simp only
  omega

theorem padKeywords_aligned (hx : 1 < x) :
    Aligned memory s.memory ((countTable memory).mapValues (paddedSize log x)) := by
  have hkeys : ∀ w ∈ (countTable memory).entries.map Prod.fst, w ∈ keys memory := by
    intro w hw
    by_contra hnot
    have hnone : (countTable memory).find? w = none := by rw [countTable_find?, if_neg hnot]
    exact Dict.find?_eq_none.mp hnone hw
  have hfind : ∀ w ∈ keys memory, ((countTable memory).mapValues (paddedSize log x)).find? w =
      some (paddedSize log x ((keys memory).count w)) := by
    intro w hw
    rw [Dict.find?_mapValues, countTable_find?, if_pos hw, Option.map_some]
  obtain ⟨added, hadded, hshort, _⟩ := padKeywords_memory (countTable memory).nodup_keys h
  constructor
  · exact ⟨added, hadded, fun e he => ⟨Or.inl (hkeys _ (hshort e he).1), (hshort e he).2⟩⟩
  · intro e he
    rw [hadded] at he
    have hin : e.1 ∈ keys memory := by
      rcases List.mem_append.mp he with he | he
      · exact List.mem_map_of_mem he
      · exact hkeys _ (hshort e he).1
    rw [hfind _ hin]
    rfl
  · intro w c hc
    have hin : w ∈ keys memory := by
      by_contra hnot
      rw [Dict.find?_mapValues, countTable_find?, if_neg hnot] at hc
      cases hc
    rw [hfind w hin, Option.some.injEq] at hc
    have hle := List.count_le_length (a := w) (l := keys s.memory)
    rw [padKeywords_occurs h hx hin, hc, keys, List.length_map] at hle
    omega
  · intro w hw
    exact ⟨_, hfind w hw, padKeywords_occurs h hx hw⟩

end FirstLoop

theorem adjPadding_aligned (hx : 1 < x) {e : Entropy} {r : Padded × Dict Str ℕ}
    (h : adjPadding log x secretKey memory (countTable memory) e = some r) :
    Aligned memory r.1.memory r.2 := by
  obtain ⟨s, hs, h⟩ := Option.bind_eq_some_iff.mp h
  obtain ⟨n, _, h⟩ := Option.bind_eq_some_iff.mp h
  cases h
  exact aligned_iterate n (r := (s, (countTable memory).mapValues (paddedSize log x)))
    (padKeywords_aligned hs hx)

def fillers (log : CeilLog) (x : ℕ) (memory : Memory) (padded : Padded) : Memory :=
  padded.memory.drop (keywordSizes log x memory)

theorem pushFiller_iterate_memory (secretKey : Str) (n : ℕ) (r : Padded × Dict Str ℕ) :
    ∃ added, ((pushFiller secretKey)^[n] r).1.memory = r.1.memory ++ added ∧
      ∀ b ∈ added, b.1.length = 16 := by
  induction n generalizing r with
  | zero => exact ⟨[], (List.append_nil _).symm, by simp⟩
  | succ n ih =>
    obtain ⟨k, d, hk, _, hpush, _⟩ := pushFiller_eq secretKey r
    obtain ⟨added, hadded, hlen⟩ := ih (pushFiller secretKey r)
    refine ⟨(k, d) :: added, ?_, ?_⟩
    · rw [Function.iterate_succ_apply, hadded, hpush]
      simp
    · intro b hb
      rcases List.mem_cons.mp hb with rfl | hb
      · exact hk
      · exact hlen b hb

theorem adjPadding_fillers (hx : 1 < x) {e : Entropy} {r : Padded × Dict Str ℕ}
    (h : adjPadding log x secretKey memory (countTable memory) e = some r) :
    (∃ s, (countTable memory).entries.foldlM (padKeyword log x) ⟨memory, e⟩ = some s ∧
      r.1.memory = s.memory ++ fillers log x memory r.1) ∧
      ∀ b ∈ fillers log x memory r.1, b.1.length = 16 := by
  obtain ⟨s, hs, h⟩ := Option.bind_eq_some_iff.mp h
  obtain ⟨n, _, h⟩ := Option.bind_eq_some_iff.mp h
  cases h
  obtain ⟨added, hadded, hlen⟩ := pushFiller_iterate_memory secretKey n
    (s, (countTable memory).mapValues (paddedSize log x))
  rw [fillers, hadded, ← padKeywords_size hs hx, List.drop_left]
  exact ⟨⟨s, hs, rfl⟩, hlen⟩

theorem adjPadding_occurs (hx : 1 < x) {e : Entropy} {r : Padded × Dict Str ℕ}
    (h : adjPadding log x secretKey memory (countTable memory) e = some r) (hw : w ∈ keys memory)
    (hfree : ∀ b ∈ fillers log x memory r.1, b.1 ≠ w) :
    (keys r.1.memory).count w = paddedSize log x ((keys memory).count w) + 1 := by
  obtain ⟨⟨s, hs, hmemory⟩, _⟩ := adjPadding_fillers hx h
  have hnone : (keys (fillers log x memory r.1)).count w = 0 := by
    apply List.count_eq_zero.mpr
    intro hin
    obtain ⟨b, hb, hbw⟩ := List.mem_map.mp hin
    exact hfree b hb hbw
  rw [hmemory, keys_append, List.count_append, hnone, Nat.add_zero]
  exact padKeywords_occurs hs hx hw

/-- Some keyword occurs twice, as every keyword of the memory is padded with one entry at least. -/
theorem adjPadding_repeats (hx : 1 < x) {e : Entropy} {r : Padded × Dict Str ℕ}
    (h : adjPadding log x secretKey memory (countTable memory) e = some r) (hne : memory ≠ []) :
    ¬ (keys r.1.memory).Nodup := by
  obtain ⟨b, hb⟩ := List.exists_mem_of_ne_nil memory hne
  have hw : b.1 ∈ keys memory := List.mem_map_of_mem hb
  obtain ⟨⟨s, hs, hmemory⟩, _⟩ := adjPadding_fillers hx h
  have hoccurs := padKeywords_occurs hs hx hw
  have hpos : 0 < paddedSize log x ((keys memory).count b.1) := Nat.pow_pos (by omega)
  intro hd
  have hone := List.nodup_iff_count_le_one.mp hd b.1
  rw [hmemory, keys_append, List.count_append] at hone
  omega

theorem padKeywords_total {entries : List (Str × ℕ)}
    (h : ∀ entry ∈ entries, paddedSize log x entry.2 < 2 ^ 32 - 1) (s : Padded) :
    ∃ t, entries.foldlM (padKeyword log x) s = some t := by
  induction entries generalizing s with
  | nil => exact ⟨s, rfl⟩
  | cons entry entries ih =>
    have hn : iterations entry.2 (paddedSize log x entry.2) =
        some (paddedSize log x entry.2 + 1 - entry.2) :=
      if_neg (h entry List.mem_cons_self).not_ge
    obtain ⟨t, ht⟩ := ih (fun e he => h e (List.mem_cons_of_mem _ he))
      ((pushDummy entry.1)^[paddedSize log x entry.2 + 1 - entry.2] s)
    refine ⟨t, ?_⟩
    rw [List.foldlM_cons, padKeyword, hn]
    exact ht

theorem adjPadding_total (hx : 1 < x) (hsize : x * keywordSizes log x memory + 1 < 2 ^ 31)
    (e : Entropy) : ∃ r, adjPadding log x secretKey memory (countTable memory) e = some r := by
  have hle : keywordSizes log x memory ≤ x * keywordSizes log x memory :=
    Nat.le_mul_of_pos_left _ (by omega)
  have hentries : ∀ entry ∈ (countTable memory).entries, paddedSize log x entry.2 < 2 ^ 32 - 1 := by
    intro entry hentry
    have hmem : paddedSize log x entry.2 + 1 ≤ keywordSizes log x memory :=
      List.le_sum_of_mem (List.mem_map.mpr ⟨entry, hentry, rfl⟩)
    omega
  obtain ⟨s, hs⟩ := padKeywords_total hentries ⟨memory, e⟩
  have hn : iterations (s.memory.length % 2 ^ 32) (x * s.memory.length) =
      some (x * s.memory.length + 1 - s.memory.length % 2 ^ 32) := by
    apply if_neg
    rw [padKeywords_size hs hx]
    omega
  apply Option.isSome_iff_exists.mp
  rw [adjPadding, hs, Option.bind_eq_bind, Option.bind_some, hn]
  rfl

end PaddedMemory
