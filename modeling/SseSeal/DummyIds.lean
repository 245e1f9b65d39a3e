import SseSeal.PaddedMemory
import SseSeal.TableLoading
import Mathlib.Tactic.IntervalCases

/-! The ids of the documents that padding makes. An id is drawn from the size that the memory
has at that moment on, and `search` compares it with the size after all padding. -/
namespace DummyIds

open Bytes ComputedLog Objects SortedMap Padding PaddedMemory TableLoading

/-- The value drawn for the dummy that is made with `j` dummies before it, on a memory that had
some size at first. -/
def drawn (e : Entropy) (size j : ℕ) : ℕ :=
  ({ e with uniformUsed := e.uniformUsed + j }.randombytesUniform
    ((2 ^ 64 + 0xfffffff0 - (size + j)) % 2 ^ 32)).1

variable {memory : Memory} {e : Entropy} {s : Padded} {secretKey : Str} {log : CeilLog} {x : ℕ}

structure Dummies (memory : Memory) (e : Entropy) (s : Padded) : Prop where
  kept : s.memory.take memory.length = memory
  uniform : s.entropy.uniform = e.uniform
  used : s.entropy.uniformUsed + memory.length = e.uniformUsed + s.memory.length
  ids : ∀ j b, s.memory[memory.length + j]? = some b →
    b.2.id = (drawn e memory.length j + (memory.length + j)) % 2 ^ 32

theorem Dummies.start (memory : Memory) (e : Entropy) : Dummies memory e ⟨memory, e⟩ := by
  constructor
  · exact List.take_length
  · rfl
  · rfl
  · intro j b hb
    rw [List.getElem?_eq_none (Nat.le_add_right _ _)] at hb
    cases hb

theorem Dummies.push {t : Padded} {keyword : Str} {keywords : List Str} {words : ℕ → ℕ}
    {wordsUsed : ℕ} (h : Dummies memory e s)
    (hmemory : t.memory = s.memory ++ [(keyword, (dummyDocument s.memory.length keywords
      ⟨s.entropy.uniform, s.entropy.uniformUsed, words, wordsUsed⟩).1)])
    (huniform : t.entropy.uniform = s.entropy.uniform)
    (hused : t.entropy.uniformUsed = s.entropy.uniformUsed + 1) : Dummies memory e t := by
  have hlen : memory.length ≤ s.memory.length := by
    have htake := congrArg List.length h.kept
    rw [List.length_take] at htake
    omega
  constructor
  · rw [hmemory, List.take_append_of_le_length hlen, h.kept]
  · exact huniform.trans h.uniform
  · rw [hmemory, List.length_append, List.length_singleton, hused]
    have hold := h.used
    omega
  · intro j b hb
    rw [hmemory] at hb
    by_cases hj : memory.length + j < s.memory.length
    · rw [List.getElem?_append_left hj] at hb
      exact h.ids j b hb
    · have hlast : memory.length + j = s.memory.length := by
        have hlt := (List.getElem?_eq_some_iff.mp hb).1
        rw [List.length_append, List.length_singleton] at hlt
        omega
      rw [hlast, List.getElem?_concat_length, Option.some.injEq] at hb
      have hdraws : s.entropy.uniformUsed = e.uniformUsed + j := by
        have hold := h.used
        omega
      rw [← hb, hlast, drawn, hlast, ← h.uniform, ← hdraws]
      rfl

theorem Dummies.pushDummy (h : Dummies memory e s) (keyword : Str) :
    Dummies memory e (pushDummy keyword s) :=
  h.push rfl rfl rfl

theorem Dummies.pushFiller {r : Padded × Dict Str ℕ} (h : Dummies memory e r.1)
    (secretKey : Str) : Dummies memory e (pushFiller secretKey r).1 :=
  h.push rfl rfl rfl

theorem adjPadding_keeps {P : Padded → Prop} {r : Padded × Dict Str ℕ} {count : Dict Str ℕ}
    (hdummy : ∀ keyword s, P s → P (Padding.pushDummy keyword s))
    (hfiller : ∀ r : Padded × Dict Str ℕ, P r.1 → P (Padding.pushFiller secretKey r).1)
    (hstart : P ⟨memory, e⟩) (h : adjPadding log x secretKey memory count e = some r) : P r.1 := by
  have hfold : ∀ (entries : List (Str × ℕ)) (s t : Padded), P s →
      entries.foldlM (padKeyword log x) s = some t → P t := by
    intro entries
    induction entries with
    | nil =>
      intro s t hs ht
      cases ht
      exact hs
    | cons entry entries ih =>
      intro s t hs ht
      rw [List.foldlM_cons] at ht
      obtain ⟨u, hu, ht⟩ := Option.bind_eq_some_iff.mp ht
      obtain ⟨n, _, rfl⟩ := Option.map_eq_some_iff.mp hu
      exact ih _ t (Function.Iterate.rec P hs (fun s hs => hdummy entry.1 s hs) n) ht
  obtain ⟨s, hs, h⟩ := Option.bind_eq_some_iff.mp h
  obtain ⟨n, _, h⟩ := Option.bind_eq_some_iff.mp h
  cases h
  exact Function.Iterate.rec (fun r : Padded × Dict Str ℕ => P r.1)
    (hfold count.entries _ s hstart hs) (fun r hr => hfiller r hr) n

theorem adjPadding_dummies {r : Padded × Dict Str ℕ} {count : Dict Str ℕ}
    (h : adjPadding log x secretKey memory count e = some r) : Dummies memory e r.1 :=
  adjPadding_keeps (fun keyword _ hs => hs.pushDummy keyword)
    (fun _ hr => hr.pushFiller secretKey) (Dummies.start memory e) h

/-- The filter of `search` keeps the rows and drops the dummies, for every keyword. -/
structure Filtered (t : Table) (padded : Memory) : Prop where
  dummies : ∀ b ∈ padded.drop t.memory.length, padded.length ≤ b.2.id
  rows : ∀ b ∈ t.memory, b.2.id < padded.length
  search : ∀ w, (padded.filter fun b => b.1 = w ∧ b.2.id < padded.length) =
    t.memory.filter fun b => b.1 = w

/-- Every draw reaches the size that the memory has in the end. -/
def DrawsSuffice (log : CeilLog) (x : ℕ) (memory : Memory) (e : Entropy) : Prop :=
  ∀ j, memory.length + j < x * keywordSizes log x memory + 1 →
    x * keywordSizes log x memory + 1 - (memory.length + j) ≤ drawn e memory.length j

theorem drawn_of_small {size j : ℕ} (h : size + j < 0xfffffff0) :
    drawn e size j < 0xfffffff0 - (size + j) := by
  have hbound : (2 ^ 64 + 0xfffffff0 - (size + j)) % 2 ^ 32 = 0xfffffff0 - (size + j) := by
    omega
  rw [drawn, Entropy.randombytesUniform, hbound]
  dsimp only
  split
  · omega
  · exact Nat.mod_lt _ (by omega)

theorem rows_id_lt {t : Table} {b : Str × Document} (hb : b ∈ t.memory) :
    b.2.id < t.memory.length := by
  obtain ⟨column, hcolumn, hb⟩ := mem_memory.mp hb
  obtain ⟨row, hrow, rfl⟩ := List.mem_map.mp hb
  have hlt := List.snd_lt_add_of_mem_zipIdx hrow
  have hsub : (t.columnEntries column.1 (t.cells column.2)).Sublist t.memory := by
    rw [Table.memory, List.flatMap_def]
    exact List.sublist_flatten_of_mem (List.mem_map.mpr ⟨column, hcolumn, rfl⟩)
  have hlen := hsub.length_le
  rw [Table.columnEntries, List.length_map, List.length_zipIdx] at hlen
  rw [Nat.zero_add] at hlt
  exact hlt.trans_le hlen

/-- Padding ends only if the size that it leads to fits an `unsigned int`. -/
theorem adjPadding_fits (hx : 1 < x) {r : Padded × Dict Str ℕ}
    (h : adjPadding log x secretKey memory (countTable memory) e = some r) :
    x * keywordSizes log x memory < 2 ^ 32 - 1 := by
  obtain ⟨s, hs, h⟩ := Option.bind_eq_some_iff.mp h
  obtain ⟨n, hn, _⟩ := Option.bind_eq_some_iff.mp h
  rw [← padKeywords_size hs hx]
  exact (iterations_eq_some hn).1

theorem DrawsSuffice.id_ge (hdraws : DrawsSuffice log x memory e) (hx : 2 ≤ x)
    (hfits : x * keywordSizes log x memory < 2 ^ 32 - 1) {j : ℕ}
    (hj : memory.length + j < x * keywordSizes log x memory + 1) :
    x * keywordSizes log x memory + 1 ≤
      (drawn e memory.length j + (memory.length + j)) % 2 ^ 32 := by
  have hdraw := hdraws j hj
  by_cases hsmall : memory.length + j < 0xfffffff0
  · have hlt := drawn_of_small (e := e) hsmall
    omega
  · -- the dummy made at the last size below the bound has only one value to draw
    have hsize := length_le_keywordSizes log hx memory
    have hdouble := Nat.mul_le_mul_right (keywordSizes log x memory) hx
    have hlast : memory.length + (0xfffffff0 - 1 - memory.length) < 0xfffffff0 := by omega
    have hlt := drawn_of_small (e := e) hlast
    have hone := hdraws (0xfffffff0 - 1 - memory.length) (by omega)
    omega

/-- Padding leaves the rows apart from the dummies, in the search for every keyword, if and only
if each draw reaches the final size of the memory. -/
theorem filtered_iff (hx : 2 ≤ x) {t : Table} {r : Padded × Dict Str ℕ}
    (h : adjPadding log x secretKey t.memory (countTable t.memory) e = some r) :
    Filtered t r.1.memory ↔ DrawsSuffice log x t.memory e := by
  have hlen := adjPadding_length hx h
  have hdummies := adjPadding_dummies h
  have hsplit : r.1.memory = t.memory ++ r.1.memory.drop t.memory.length := by
    conv_lhs => rw [← List.take_append_drop t.memory.length r.1.memory, hdummies.kept]
  have hrows : ∀ b ∈ t.memory, b.2.id < r.1.memory.length := by
    intro b hb
    have hid := rows_id_lt hb
    have hsize := length_le_keywordSizes log hx t.memory
    have hle := Nat.mul_le_mul_right (keywordSizes log x t.memory) hx
    omega
  constructor
  · intro hfilter j hj
    have hin : t.memory.length + j < r.1.memory.length := by omega
    have hget : r.1.memory[t.memory.length + j]? = some r.1.memory[t.memory.length + j] :=
      List.getElem?_eq_getElem hin
    have hmem : r.1.memory[t.memory.length + j] ∈ r.1.memory.drop t.memory.length := by
      rw [← List.getElem?_drop] at hget
      exact List.mem_of_getElem? hget
    have hid := hfilter.dummies _ hmem
    rw [hdummies.ids j _ hget] at hid
    have hmod := Nat.mod_le (drawn e t.memory.length j + (t.memory.length + j)) (2 ^ 32)
    omega
  · intro hdraws
    have hids : ∀ b ∈ r.1.memory.drop t.memory.length, r.1.memory.length ≤ b.2.id := by
      intro b hb
      obtain ⟨j, hget⟩ := List.mem_iff_getElem?.mp hb
      rw [List.getElem?_drop] at hget
      have hlt := (List.getElem?_eq_some_iff.mp hget).1
      rw [hdummies.ids j b hget, hlen]
      exact hdraws.id_ge hx (adjPadding_fits hx h) (by omega)
    refine ⟨hids, hrows, ?_⟩
    intro w
    have hfront : (t.memory.filter fun b => b.1 = w ∧ b.2.id < r.1.memory.length) =
        t.memory.filter fun b => b.1 = w := by
      apply List.filter_congr
      intro b hb
      simp [hrows b hb]
    have hback : ((r.1.memory.drop t.memory.length).filter fun b =>
        b.1 = w ∧ b.2.id < r.1.memory.length) = [] := by
      apply List.filter_eq_nil_iff.mpr
      intro b hb
      have hid := hids b hb
      simp [hid]
    conv_lhs => rw [hsplit]
    rw [List.filter_append, ← hsplit, hfront, hback, List.append_nil]

def oneCell : Table := ⟨[], [[97]], [[[49]]]⟩

theorem filtered_iff_high_draws : ∃ r,
    adjPadding .ideal 2 [] oneCell.memory (countTable oneCell.memory)
        ⟨fun _ => 1000, 0, fun _ => 0, 0⟩ =
      some r ∧ Filtered oneCell r.1.memory := by
  have hr : ∃ r, adjPadding .ideal 2 [] oneCell.memory (countTable oneCell.memory)
      ⟨fun _ => 1000, 0, fun _ => 0, 0⟩ = some r := ⟨_, rfl⟩
  obtain ⟨r, hr⟩ := hr
  refine ⟨r, hr, (filtered_iff (by decide) hr).mpr ?_⟩
  intro j hj
  have hlen : oneCell.memory.length = 1 := by decide +kernel
  have hsizes : keywordSizes .ideal 2 oneCell.memory = 2 := by decide +kernel
  rw [hlen, hsizes] at hj
  rw [hlen, hsizes]
  have hlt : j < 4 := by omega
  interval_cases j <;> decide +kernel

/-- All draws are 0, and the first dummy has the id 1 in a memory of 5 entries. -/
theorem low_draws_not_filtered : ∃ r,
    adjPadding .ideal 2 [] oneCell.memory (countTable oneCell.memory)
        ⟨fun _ => 0, 0, fun _ => 0, 0⟩ =
      some r ∧ r.1.memory.length = 5 ∧ (r.1.memory.map fun b => b.2.id) = [0, 1, 2, 3, 4] ∧
      ¬ Filtered oneCell r.1.memory := by
  refine ⟨_, rfl, by decide +kernel, by decide +kernel, ?_⟩
  intro hfilter
  have hsearch := hfilter.search [97, 49]
  revert hsearch
  decide +kernel

end DummyIds
