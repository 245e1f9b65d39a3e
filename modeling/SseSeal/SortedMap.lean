import Mathlib.Algebra.BigOperators.Group.List.Basic
import Mathlib.Algebra.GroupWithZero.Nat
import Mathlib.Data.List.Induction
import Mathlib.Data.List.Nodup
import Mathlib.Order.Lattice

/-! Maps as lists of entries in the order of their keys, the way a search tree is
iterated. Every update goes through one operation that changes the value of a key or
adds the key. -/
namespace SortedMap

variable {κ ν : Type*} [LinearOrder κ]

def alterEntries (k : κ) (f : Option ν → ν) : List (κ × ν) → List (κ × ν)
  | [] => [(k, f none)]
  | (a, v) :: l =>
    if k < a then (k, f none) :: (a, v) :: l
    else if k = a then (a, f (some v)) :: l
    else (a, v) :: alterEntries k f l

theorem keys_alterEntries {k a : κ} {f : Option ν → ν} {l : List (κ × ν)} :
    a ∈ (alterEntries k f l).map Prod.fst ↔ a = k ∨ a ∈ l.map Prod.fst := by
  induction l with
  | nil => simp [alterEntries]
  | cons e l ih =>
    obtain ⟨b, v⟩ := e
    rw [alterEntries]
    split
    · simp
    · split
      · rename_i hkb
        subst hkb
        simp
      · rw [List.map_cons, List.mem_cons, ih, List.map_cons, List.mem_cons]
        exact or_left_comm

theorem alterEntries_sorted {k : κ} {f : Option ν → ν} {l : List (κ × ν)}
    (h : (l.map Prod.fst).Pairwise (· < ·)) :
    ((alterEntries k f l).map Prod.fst).Pairwise (· < ·) := by
  induction l with
  | nil => simp [alterEntries]
  | cons e l ih =>
    obtain ⟨b, v⟩ := e
    rw [List.map_cons, List.pairwise_cons] at h
    obtain ⟨hb, hl⟩ := h
    rw [alterEntries]
    split
    · rename_i hkb
      rw [List.map_cons, List.pairwise_cons, List.map_cons, List.pairwise_cons]
      refine ⟨?_, hb, hl⟩
      intro a ha
      rcases List.mem_cons.mp ha with rfl | ha
      · exact hkb
      · exact hkb.trans (hb a ha)
    · split
      · exact List.pairwise_cons.mpr ⟨hb, hl⟩
      · rename_i hkb hne
        rw [List.map_cons, List.pairwise_cons]
        refine ⟨?_, ih hl⟩
        intro a ha
        rcases keys_alterEntries.mp ha with rfl | ha
        · exact lt_of_le_of_ne (not_lt.mp hkb) (Ne.symm hne)
        · exact hb a ha

structure Dict (κ ν : Type*) [LinearOrder κ] where
  entries : List (κ × ν)
  sorted : (entries.map Prod.fst).Pairwise (· < ·)

namespace Dict

def empty : Dict κ ν := ⟨[], List.Pairwise.nil⟩

def find? (m : Dict κ ν) (k : κ) : Option ν := (m.entries.find? (·.1 = k)).map Prod.snd

def alter (m : Dict κ ν) (k : κ) (f : Option ν → ν) : Dict κ ν :=
  ⟨alterEntries k f m.entries, alterEntries_sorted m.sorted⟩

def mapValues {μ : Type*} (m : Dict κ ν) (f : ν → μ) : Dict κ μ :=
  ⟨m.entries.map fun e => (e.1, f e.2), by simpa [Function.comp_def] using m.sorted⟩

variable {m : Dict κ ν} {k a : κ} {f : Option ν → ν} {v : ν}

@[simp] theorem find?_empty : (empty : Dict κ ν).find? k = none := rfl

theorem nodup_keys (m : Dict κ ν) : (m.entries.map Prod.fst).Nodup :=
  m.sorted.imp ne_of_lt

theorem find?_eq_some : m.find? k = some v ↔ (k, v) ∈ m.entries := by
  constructor
  · intro h
    obtain ⟨⟨b, w⟩, he, hv⟩ := Option.map_eq_some_iff.mp h
    have hk : b = k := by simpa using List.find?_some he
    subst hk hv
    exact List.mem_of_find?_eq_some he
  · intro h
    cases he : m.entries.find? (·.1 = k) with
    | none =>
      have hne := List.find?_eq_none.mp he _ h
      simp at hne
    | some e =>
      have hk : e.1 = k := by simpa using List.find?_some he
      have hmem := List.mem_of_find?_eq_some he
      have hfst := List.inj_on_of_nodup_map m.nodup_keys hmem h hk
      rw [find?, he, hfst]
      rfl

theorem find?_eq_none : m.find? k = none ↔ k ∉ m.entries.map Prod.fst := by
  constructor
  · intro h hk
    obtain ⟨⟨b, v⟩, he, rfl⟩ := List.mem_map.mp hk
    rw [find?_eq_some.mpr he] at h
    cases h
  · intro h
    cases hf : m.find? k with
    | none => rfl
    | some v => exact absurd (List.mem_map_of_mem (f := Prod.fst) (find?_eq_some.mp hf)) h

theorem alterEntries_find {l : List (κ × ν)} (h : (l.map Prod.fst).Pairwise (· < ·)) :
    (alterEntries k f l).find? (·.1 = a) =
      if a = k then some (k, f ((l.find? (·.1 = k)).map Prod.snd)) else l.find? (·.1 = a) := by
  induction l with
  | nil =>
    by_cases hak : a = k
    · simp [alterEntries, hak]
    · simp [alterEntries, hak, Ne.symm hak]
  | cons e l ih =>
    obtain ⟨b, v⟩ := e
    rw [List.map_cons, List.pairwise_cons] at h
    obtain ⟨hb, hl⟩ := h
    rw [alterEntries]
    split
    · rename_i hkb
      have hnone : ((b, v) :: l).find? (·.1 = k) = none := by
        apply List.find?_eq_none.mpr
        intro e he
        have hlt : k < e.1 := by
          rcases List.mem_cons.mp he with rfl | he
          · exact hkb
          · exact hkb.trans (hb _ (List.mem_map_of_mem he))
        simpa using hlt.ne'
      rw [hnone]
      by_cases hak : a = k
      · simp [hak]
      · simp [hak, Ne.symm hak]
    · split
      · rename_i hkb
        subst hkb
        by_cases hak : a = k
        · simp [hak]
        · simp [hak, Ne.symm hak]
      · rename_i hne
        by_cases hab : b = a
        · subst hab
          simp [Ne.symm hne]
        · rw [List.find?_cons_of_neg (by simpa using hab), ih hl]
          have hbk : ((b, v) :: l).find? (·.1 = k) = l.find? (·.1 = k) :=
            List.find?_cons_of_neg (by simpa using Ne.symm hne)
          rw [hbk, List.find?_cons_of_neg (by simpa using hab)]

theorem find?_alter :
    (m.alter k f).find? a = if a = k then some (f (m.find? k)) else m.find? a := by
  rw [find?, alter, alterEntries_find m.sorted]
  split
  · rfl
  · rfl

@[simp] theorem find?_alter_self : (m.alter k f).find? k = some (f (m.find? k)) := by
  rw [find?_alter, if_pos rfl]

theorem find?_alter_of_ne (h : a ≠ k) : (m.alter k f).find? a = m.find? a := by
  rw [find?_alter, if_neg h]

theorem alterEntries_self {l : List (κ × ν)} (h : (k, v) ∈ l)
    (hs : (l.map Prod.fst).Pairwise (· < ·)) (hv : f (some v) = v) : alterEntries k f l = l := by
  induction l with
  | nil => cases h
  | cons e l ih =>
    obtain ⟨b, w⟩ := e
    rw [List.map_cons, List.pairwise_cons] at hs
    rcases List.mem_cons.mp h with heq | h
    · cases heq
      rw [alterEntries, if_neg (lt_irrefl k), if_pos rfl, hv]
    · have hlt : b < k := hs.1 k (List.mem_map_of_mem h)
      rw [alterEntries, if_neg hlt.le.not_gt, if_neg hlt.ne', ih h hs.2]

theorem alter_self (h : m.find? k = some v) (hv : f (some v) = v) : m.alter k f = m := by
  have hentries := alterEntries_self (find?_eq_some.mp h) m.sorted hv
  simp only [alter, hentries]

theorem find?_foldl_alter_of_ne {α : Type*} {key : α → κ} {value : α → ν} {l : List α}
    (h : ∀ b ∈ l, key b ≠ k) :
    (l.foldl (fun m b => m.alter (key b) fun _ => value b) m).find? k = m.find? k := by
  induction l generalizing m with
  | nil => rfl
  | cons b l ih =>
    rw [List.foldl_cons, ih fun d hd => h d (List.mem_cons_of_mem _ hd)]
    exact find?_alter_of_ne (h b List.mem_cons_self).symm

theorem find?_foldl_alter {α : Type*} {key : α → κ} {value : α → ν} {l : List α} {b : α}
    (hb : b ∈ l) (h : ∀ d ∈ l, key d = key b → d = b) :
    (l.foldl (fun m d => m.alter (key d) fun _ => value d) m).find? (key b) =
      some (value b) := by
  induction l generalizing m with
  | nil => cases hb
  | cons d l ih =>
    have hrest : ∀ e ∈ l, key e = key b → e = b := fun e he => h e (List.mem_cons_of_mem _ he)
    rw [List.foldl_cons]
    by_cases hin : b ∈ l
    · exact ih hin hrest
    · rcases List.mem_cons.mp hb with rfl | hlater
      · rw [find?_foldl_alter_of_ne, find?_alter_self]
        intro e he heq
        exact hin (hrest e he heq ▸ he)
      · exact absurd hlater hin

theorem find?_mapValues {μ : Type*} {g : ν → μ} : (m.mapValues g).find? k = (m.find? k).map g := by
  cases hf : m.find? k with
  | none =>
    rw [find?_eq_none] at hf
    apply find?_eq_none.mpr
    simpa [mapValues, Function.comp_def] using hf
  | some v =>
    rw [find?_eq_some] at hf
    exact find?_eq_some.mpr (List.mem_map_of_mem (f := fun e => (e.1, g e.2)) hf)

end Dict

theorem sum_alterEntries {k : κ} {f : Option ℕ → ℕ} {l : List (κ × ℕ)}
    (hf : ∀ v, f v = v.getD 0 + 1) :
    ((alterEntries k f l).map Prod.snd).sum = (l.map Prod.snd).sum + 1 := by
  induction l with
  | nil => simp [alterEntries, hf]
  | cons e l ih =>
    obtain ⟨b, v⟩ := e
    rw [alterEntries]
    split
    · simp [hf]
      omega
    · split
      · simp [hf]
        omega
      · simp only [List.map_cons, List.sum_cons, ih]
        omega

def tally (keys : List κ) : Dict κ ℕ :=
  keys.foldl (fun m k => m.alter k fun v => v.getD 0 + 1) .empty

theorem tally_concat (keys : List κ) (k : κ) :
    tally (keys ++ [k]) = (tally keys).alter k fun v => v.getD 0 + 1 := by
  simp [tally]

theorem tally_sum (keys : List κ) : ((tally keys).entries.map Prod.snd).sum = keys.length := by
  induction keys using List.reverseRecOn with
  | nil => rfl
  | append_singleton keys k ih =>
    rw [tally_concat, List.length_append, ← ih]
    exact sum_alterEntries fun _ => rfl

theorem tally_find? [BEq κ] [LawfulBEq κ] (keys : List κ) (k : κ) :
    (tally keys).find? k = if k ∈ keys then some (keys.count k) else none := by
  induction keys using List.reverseRecOn with
  | nil => rfl
  | append_singleton keys a ih =>
    rw [tally_concat]
    by_cases hk : k = a
    · subst hk
      rw [Dict.find?_alter_self, ih]
      by_cases hin : k ∈ keys
      · simp [hin]
      · simp [hin, List.count_eq_zero.mpr hin]
    · rw [Dict.find?_alter_of_ne hk, ih]
      simp [hk, Ne.symm hk]

end SortedMap
