import Mathlib.Data.Multiset.AddSub
import Mathlib.Data.Multiset.MapFold
import Mathlib.Data.Multiset.UnionInter
import Mathlib.Logic.Function.Basic

/-! A multiset of keyed items with one item for each key is a partial map. Replacing
an item and adding one with a free key update the map at that key. -/
namespace KeyedMultiset

variable {β κ ν : Type*} {key : β → κ} {val : β → ν}
variable {s rest : Multiset β} {m : κ → Option ν} {b c : β}

structure Represents (key : β → κ) (val : β → ν) (s : Multiset β) (m : κ → Option ν) :
    Prop where
  unique : (s.map key).Nodup
  value : ∀ b ∈ s, m (key b) = some (val b)
  present : ∀ k d, m k = some d → ∃ b ∈ s, key b = k

theorem represents_zero : Represents key val 0 fun _ => none := by
  constructor <;> simp

theorem Represents.absent {k : κ} (h : Represents key val s m) (hk : ∀ b ∈ s, key b ≠ k) :
    m k = none := by
  cases hm : m k with
  | none => rfl
  | some d =>
    obtain ⟨b, hb, hbk⟩ := h.present k d hm
    exact absurd hbk (hk b hb)

theorem Represents.other (h : Represents key val (b ::ₘ rest) m) : ∀ d ∈ rest, key d ≠ key b := by
  intro d hd he
  have hu := h.unique
  rw [Multiset.map_cons, Multiset.nodup_cons] at hu
  exact hu.1 (he ▸ Multiset.mem_map_of_mem key hd)

variable [DecidableEq κ]

theorem Represents.insert (h : Represents key val s m) (hfree : ∀ b ∈ s, key b ≠ key c) :
    Represents key val (c ::ₘ s) (Function.update m (key c) (some (val c))) := by
  constructor
  · rw [Multiset.map_cons, Multiset.nodup_cons]
    refine ⟨?_, h.unique⟩
    intro hmem
    obtain ⟨d, hd, he⟩ := Multiset.mem_map.mp hmem
    exact hfree d hd he
  · intro d hd
    rcases Multiset.mem_cons.mp hd with rfl | hd
    · exact Function.update_self _ _ _
    · rw [Function.update_of_ne (hfree d hd)]
      exact h.value d hd
  · intro k d hk
    by_cases he : k = key c
    · exact ⟨c, Multiset.mem_cons_self _ _, he.symm⟩
    · rw [Function.update_of_ne he] at hk
      obtain ⟨b, hb, hbk⟩ := h.present k d hk
      exact ⟨b, Multiset.mem_cons_of_mem hb, hbk⟩

theorem Represents.erase (h : Represents key val (b ::ₘ rest) m) :
    Represents key val rest (Function.update m (key b) none) := by
  have hu := h.unique
  rw [Multiset.map_cons, Multiset.nodup_cons] at hu
  constructor
  · exact hu.2
  · intro d hd
    rw [Function.update_of_ne (h.other d hd)]
    exact h.value d (Multiset.mem_cons_of_mem hd)
  · intro k d hk
    by_cases he : k = key b
    · rw [he, Function.update_self] at hk
      cases hk
    · rw [Function.update_of_ne he] at hk
      obtain ⟨e, hmem, hek⟩ := h.present k d hk
      rcases Multiset.mem_cons.mp hmem with rfl | hmem
      · exact absurd hek.symm he
      · exact ⟨e, hmem, hek⟩

theorem Represents.replace (h : Represents key val (b ::ₘ rest) m) (hk : key c = key b) :
    Represents key val (c ::ₘ rest) (Function.update m (key b) (some (val c))) := by
  have hi := h.erase.insert (c := c) (fun d hd => hk ▸ h.other d hd)
  rwa [hk, Function.update_idem] at hi

end KeyedMultiset
