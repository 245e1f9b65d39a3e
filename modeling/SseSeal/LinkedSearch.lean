import Mathlib.Data.Finset.Card
import Mathlib.Data.Set.Basic
import Mathlib.Order.Defs.LinearOrder

/-! Search along links. The nodes of a search tree are stored apart, each with the ids of its
children; nothing says that the links that are stored form a tree. -/
namespace LinkedSearch

structure Link (ι κ ν : Type) where
  entry : κ × ν
  left : ι
  right : ι
  leftHeight : ℤ
  rightHeight : ℤ

variable {ι κ ν : Type} [LinearOrder κ]

def Link.next (key : κ) (b : Link ι κ ν) : ι := if b.entry.1 < key then b.right else b.left

/-- A search for the key from the id visits the ids of the list and ends at the entry. -/
inductive Walk (links : ι → Option (Link ι κ ν)) (key : κ) : ι → List ι → κ × ν → Prop where
  | found {i : ι} {b : Link ι κ ν} : links i = some b → b.entry.1 = key →
      Walk links key i [i] b.entry
  | step {i : ι} {b : Link ι κ ν} {path : List ι} {e : κ × ν} : links i = some b →
      b.entry.1 ≠ key → Walk links key (b.next key) path e → Walk links key i (i :: path) e

def Meets (links : ι → Option (Link ι κ ν)) (key : κ) (i : ι) : Prop :=
  ∃ path e, Walk links key i path e

variable {links links' : ι → Option (Link ι κ ν)} {key : κ} {i j : ι} {b : Link ι κ ν}
  {path path' : List ι} {e e' : κ × ν}

theorem Walk.ends (h : Walk links key i path e) :
    e.1 = key ∧ ∃ j b, links j = some b ∧ b.entry = e := by
  induction h with
  | found hb hkey => exact ⟨hkey, _, _, hb, rfl⟩
  | step _ _ _ ih => exact ih

/-- A search depends on the links of the ids it visits. -/
theorem Walk.congr (h : Walk links key i path e) (hsame : ∀ j ∈ path, links' j = links j) :
    Walk links' key i path e := by
  induction h with
  | found hb hkey => exact .found ((hsame _ List.mem_cons_self).trans hb) hkey
  | step hb hne _ ih =>
    have hrest := ih fun j hj => hsame j (List.mem_cons_of_mem _ hj)
    exact .step ((hsame _ List.mem_cons_self).trans hb) hne hrest

theorem meets_iff (hb : links i = some b) :
    Meets links key i ↔ b.entry.1 = key ∨ Meets links key (b.next key) := by
  constructor
  · intro h
    obtain ⟨path, e, h⟩ := h
    cases h with
    | found hb' hkey =>
      cases hb.symm.trans hb'
      exact Or.inl hkey
    | step hb' _ hrest =>
      cases hb.symm.trans hb'
      exact Or.inr ⟨_, _, hrest⟩
  · intro h
    by_cases hkey : b.entry.1 = key
    · exact ⟨_, _, .found hb hkey⟩
    · obtain ⟨path, e, hrest⟩ := h.resolve_left hkey
      exact ⟨_, _, .step hb hkey hrest⟩

theorem Meets.linked (h : Meets links key i) : ∃ b, links i = some b := by
  obtain ⟨path, e, hwalk⟩ := h
  cases hwalk with
  | found hb _ => exact ⟨_, hb⟩
  | step hb _ _ => exact ⟨_, hb⟩

theorem Walk.stays {S : Set ι} (h : Walk links key i path e) (hi : i ∈ S)
    (hS : ∀ j ∈ S, ∀ b, links j = some b → b.next key ∈ S ∨ links (b.next key) = none) :
    ∀ j ∈ path, j ∈ S := by
  induction h with
  | found _ _ =>
    intro j hj
    exact List.mem_singleton.mp hj ▸ hi
  | step hb _ hwalk ih =>
    intro j hj
    rcases List.mem_cons.mp hj with rfl | hj
    · exact hi
    rcases hS _ hi _ hb with hnext | hnone
    · exact ih hnext j hj
    · obtain ⟨b, hb⟩ := Meets.linked ⟨_, _, hwalk⟩
      cases hnone.symm.trans hb

theorem Walk.unique (h : Walk links key i path e) (h' : Walk links key i path' e') :
    path' = path := by
  induction h generalizing path' with
  | found hb hkey =>
    cases h' with
    | found _ _ => rfl
    | step hb' hne _ =>
      cases hb.symm.trans hb'
      exact absurd hkey hne
  | step hb hne _ ih =>
    cases h' with
    | found hb' hkey =>
      cases hb.symm.trans hb'
      exact absurd hkey hne
    | step hb' _ hrest =>
      cases hb.symm.trans hb'
      rw [ih hrest]

theorem Walk.from_mem (h : Walk links key i path e) (hj : j ∈ path) :
    ∃ rest, Walk links key j rest e ∧ rest.length ≤ path.length := by
  induction h with
  | found hb hkey =>
    cases List.mem_singleton.mp hj
    exact ⟨_, .found hb hkey, le_rfl⟩
  | step hb hne hwalk ih =>
    rcases List.mem_cons.mp hj with rfl | hj
    · exact ⟨_, .step hb hne hwalk, le_rfl⟩
    · obtain ⟨rest, hrest, hlen⟩ := ih hj
      exact ⟨rest, hrest, hlen.trans (Nat.le_succ _)⟩

theorem Walk.nodup (h : Walk links key i path e) : path.Nodup := by
  induction h with
  | found _ _ => exact List.nodup_singleton _
  | step hb hne hwalk ih =>
    refine List.nodup_cons.mpr ⟨?_, ih⟩
    -- a search that came back would have to be longer than itself
    intro hi
    obtain ⟨again, hagain, hlen⟩ := hwalk.from_mem hi
    rw [(Walk.step hb hne hwalk).unique hagain, List.length_cons] at hlen
    exact absurd hlen (Nat.not_succ_le_self _)

theorem Walk.length_le (h : Walk links key i path e) {ids : List ι}
    (hids : ∀ j b, links j = some b → j ∈ ids) : path.length ≤ ids.length := by
  apply (h.nodup.subperm _).length_le
  intro j hj
  obtain ⟨rest, hrest, _⟩ := h.from_mem hj
  obtain ⟨b, hb⟩ := Meets.linked ⟨rest, e, hrest⟩
  exact hids j b hb

end LinkedSearch
