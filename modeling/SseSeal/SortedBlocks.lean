import Mathlib.Data.List.Count
import Mathlib.Data.List.Nodup
import Mathlib.Data.List.Perm.Basic
import Mathlib.Data.Nat.Basic
import Mathlib.Order.Lattice

/-! Sorted lists: the elements of a lower set come first, and equal elements are neighbours. -/
namespace SortedBlocks

variable {κ : Type*} [LinearOrder κ] {l : List κ} {k : κ} {i : ℕ}

/-- The elements of a lower set are as many as its positions, which are the first ones. -/
theorem lower_iff {p : κ → Prop} [DecidablePred p] (hl : l.Pairwise (· ≤ ·))
    (hp : ∀ a b, a ≤ b → p b → p a) (hi : i < l.length) : p l[i] ↔ i < l.countP p := by
  induction l generalizing i with
  | nil => simp at hi
  | cons a l ih =>
    rw [List.pairwise_cons] at hl
    obtain ⟨ha, hl⟩ := hl
    by_cases hpa : p a
    · rw [List.countP_cons_of_pos (by simpa using hpa)]
      cases i with
      | zero => simp [hpa]
      | succ i =>
        rw [List.getElem_cons_succ, Nat.succ_lt_succ_iff]
        exact ih hl (Nat.lt_of_succ_lt_succ hi)
    · have hnone : ∀ b ∈ a :: l, ¬ p b := by
        intro b hb hpb
        rcases List.mem_cons.mp hb with rfl | hb
        · exact hpa hpb
        · exact hpa (hp a b (ha b hb) hpb)
      have hzero : (a :: l).countP p = 0 := List.countP_eq_zero.mpr fun b hb => by
        simpa using hnone b hb
      rw [hzero]
      exact iff_of_false (hnone _ (List.getElem_mem hi)) (Nat.not_lt_zero _)

def rank (k : κ) (l : List κ) : ℕ := l.countP (· < k)

section Blocks

variable [BEq κ] [LawfulBEq κ]

theorem countP_le_eq (k : κ) (l : List κ) : l.countP (· ≤ k) = rank k l + l.count k := by
  induction l with
  | nil => rfl
  | cons a l ih =>
    rw [rank, List.countP_cons, List.countP_cons, List.count_cons, ih, ← rank]
    rcases lt_trichotomy a k with h | rfl | h
    · simp [h, h.le, h.ne]
      omega
    · simp
      omega
    · simp [h.not_ge, h.not_gt, h.ne']

theorem getElem_eq_iff (hl : l.Pairwise (· ≤ ·)) (hi : i < l.length) :
    l[i] = k ↔ rank k l ≤ i ∧ i < rank k l + l.count k := by
  have hlt : l[i] < k ↔ i < rank k l :=
    lower_iff hl (fun _ _ hab hb => hab.trans_lt hb) hi
  have hle : l[i] ≤ k ↔ i < rank k l + l.count k := by
    rw [← countP_le_eq]
    exact lower_iff hl (fun _ _ hab hb => hab.trans hb) hi
  rw [← hle, ← not_lt, ← hlt, le_antisymm_iff, not_lt]
  exact and_comm

theorem rank_add_count_le (k : κ) (l : List κ) : rank k l + l.count k ≤ l.length := by
  rw [← countP_le_eq]
  exact List.countP_le_length

theorem idxOf_eq_rank (hl : l.Pairwise (· ≤ ·)) (hk : k ∈ l) : l.idxOf k = rank k l := by
  have hidx : l.idxOf k < l.length := List.idxOf_lt_length_of_mem hk
  have hat : l[l.idxOf k] = k := List.getElem_idxOf hidx
  have hcount : 0 < l.count k := List.count_pos_iff.mpr hk
  have hrank : rank k l < l.length := by
    have hle := rank_add_count_le k l
    omega
  have hstart : l[rank k l] = k := (getElem_eq_iff hl hrank).mpr ⟨le_rfl, by omega⟩
  apply le_antisymm
  · by_contra hlt
    have hbefore := List.not_of_lt_findIdx (not_le.mp hlt)
    simp [hstart] at hbefore
  · exact ((getElem_eq_iff hl hidx).mp hat).1

theorem filter_eq_block {α : Type*} {l : List α} {q : α → Prop} [DecidablePred q] {r n : ℕ}
    (h : ∀ i (hi : i < l.length), q l[i] ↔ r ≤ i ∧ i < r + n) :
    l.filter q = (l.drop r).take n := by
  induction l generalizing r n with
  | nil => simp
  | cons a l ih =>
    have hhead := h 0 (Nat.succ_pos _)
    have htail : ∀ i (hi : i < l.length), q l[i] ↔ r ≤ i + 1 ∧ i + 1 < r + n := fun i hi =>
      h (i + 1) (Nat.succ_lt_succ hi)
    rw [List.getElem_cons_zero] at hhead
    cases r with
    | zero =>
      cases n with
      | zero =>
        have hq : ¬ q a := fun hq => by simpa using hhead.mp hq
        rw [List.filter_cons_of_neg (by simpa using hq), ih (r := 0) (n := 0) fun i hi => by
          rw [htail i hi]
          omega]
        simp
      | succ n =>
        have hq : q a := hhead.mpr ⟨le_rfl, by omega⟩
        rw [List.filter_cons_of_pos (by simpa using hq), ih (r := 0) (n := n) fun i hi => by
          rw [htail i hi]
          omega]
        simp
    | succ r =>
      have hq : ¬ q a := fun hq => by simpa using (hhead.mp hq).1
      rw [List.filter_cons_of_neg (by simpa using hq), ih (r := r) (n := n) fun i hi => by
        rw [htail i hi]
        omega]
      simp

end Blocks

theorem flatMap_filter_perm {α : Type*} (val : α → κ) {values : List κ} (h : values.Nodup)
    (l : List α) : (values.flatMap fun k => l.filter fun a => val a = k).Perm
      (l.filter fun a => val a ∈ values) := by
  induction values with
  | nil => simp
  | cons k values ih =>
    obtain ⟨hk, hvalues⟩ := List.nodup_cons.mp h
    have hsplit := List.filter_append_perm (fun a => decide (val a = k))
      (l.filter fun a => val a ∈ k :: values)
    have hone : (l.filter fun a => val a ∈ k :: values).filter (fun a => val a = k) =
        l.filter fun a => val a = k := by
      rw [List.filter_filter]
      apply List.filter_congr
      intro a _
      by_cases hak : val a = k
      · simp [hak]
      · simp [hak]
    have hrest : (l.filter fun a => val a ∈ k :: values).filter (fun a => !decide (val a = k)) =
        l.filter fun a => val a ∈ values := by
      rw [List.filter_filter]
      apply List.filter_congr
      intro a _
      by_cases hak : val a = k
      · simp [hak, hk]
      · simp [hak]
    rw [hone, hrest] at hsplit
    rw [List.flatMap_cons]
    exact ((ih hvalues).append_left _).trans hsplit

/-- Reading positions of a sorted list gives the elements of a range of values if and only if
the positions are those of the block of the range. -/
theorem select_perm_iff {α : Type*} {l answer : List α} {val : α → κ} {positions : List ℕ}
    {lo hi : κ} (hl : l.Nodup) (horder : (l.map val).Pairwise (· ≤ ·)) (hpos : positions.Nodup)
    (hread : List.Forall₂ (fun i a => l[i]? = some a) positions answer) :
    answer.Perm (l.filter fun a => lo ≤ val a ∧ val a ≤ hi) ↔
      ∀ i < l.length, i ∈ positions ↔
        (l.map val).countP (· < lo) ≤ i ∧ i < (l.map val).countP (· ≤ hi) := by
  have hblock : ∀ i (hi' : i < l.length), (lo ≤ val l[i] ∧ val l[i] ≤ hi) ↔
      (l.map val).countP (· < lo) ≤ i ∧ i < (l.map val).countP (· ≤ hi) := by
    intro i hi'
    have hmap : i < (l.map val).length := by rwa [List.length_map]
    have hlt := lower_iff (p := (· < lo)) horder (fun _ _ hab hb => hab.trans_lt hb) hmap
    have hle := lower_iff (p := (· ≤ hi)) horder (fun _ _ hab hb => hab.trans hb) hmap
    rw [List.getElem_map] at hlt hle
    rw [← hle, ← not_lt, hlt, not_lt]
  have hread' := List.forall₂_iff_get.mp hread
  have hmem : ∀ a, a ∈ answer ↔ ∃ i ∈ positions, l[i]? = some a := by
    intro a
    constructor
    · intro ha
      obtain ⟨n, hn, rfl⟩ := List.getElem_of_mem ha
      have hn' : n < positions.length := hread'.1 ▸ hn
      exact ⟨positions[n], List.getElem_mem hn', hread'.2 n hn' hn⟩
    · rintro ⟨i, hi, hget⟩
      obtain ⟨n, hn, rfl⟩ := List.getElem_of_mem hi
      have hn' : n < answer.length := hread'.1 ▸ hn
      have hsame : l[positions[n]]? = some answer[n] := hread'.2 n hn hn'
      rw [hget, Option.some.injEq] at hsame
      exact hsame ▸ List.getElem_mem hn'
  have hsame : ∀ (i j : ℕ) a, l[i]? = some a → l[j]? = some a → i = j := by
    intro i j a hi hj
    have hlt := (List.getElem?_eq_some_iff.mp hi).1
    exact (List.getElem?_inj hlt hl).mp (hi.trans hj.symm)
  have hnodup : answer.Nodup := by
    refine List.nodup_iff_injective_get.mpr ?_
    intro m n heq
    have hm' : m.1 < positions.length := m.2.trans_eq hread'.1.symm
    have hn' : n.1 < positions.length := n.2.trans_eq hread'.1.symm
    have hgetm : l[positions[m.1]]? = some (answer.get m) := hread'.2 m hm' m.2
    have hgetn : l[positions[n.1]]? = some (answer.get n) := hread'.2 n hn' n.2
    rw [← heq] at hgetn
    exact Fin.ext ((List.Nodup.getElem_inj_iff hpos).mp (hsame _ _ _ hgetm hgetn))
  rw [List.perm_ext_iff_of_nodup hnodup (hl.filter _)]
  constructor
  · intro h i hi
    rw [← hblock i hi]
    have hget : l[i]? = some l[i] := List.getElem?_eq_getElem hi
    have ha := h l[i]
    rw [hmem, List.mem_filter] at ha
    constructor
    · intro hin
      simpa using (ha.mp ⟨i, hin, hget⟩).2
    · intro hrange
      obtain ⟨j, hj, hgetj⟩ := ha.mpr ⟨List.getElem_mem hi, by simpa using hrange⟩
      rwa [hsame i j _ hget hgetj]
  · intro h a
    rw [hmem, List.mem_filter]
    constructor
    · rintro ⟨i, hi, hget⟩
      obtain ⟨hlt, rfl⟩ := List.getElem?_eq_some_iff.mp hget
      exact ⟨List.getElem_mem hlt, by simpa using (hblock i hlt).mpr ((h i hlt).mp hi)⟩
    · rintro ⟨ha, hrange⟩
      obtain ⟨i, hlt, rfl⟩ := List.getElem_of_mem ha
      rw [decide_eq_true_eq] at hrange
      exact ⟨i, (h i hlt).mpr ((hblock i hlt).mp hrange), List.getElem?_eq_getElem hlt⟩

end SortedBlocks
