import Mathlib.Data.List.Basic
import Mathlib.Data.List.Perm.Basic

/-! Taking the first few elements of a list that satisfy a test, and erasing
elements by a key. When the test only looks at the key, erasing the keys of the
taken elements leaves exactly the other elements, even if keys repeat. -/
namespace ListPicking

variable {α κ : Type*} [DecidableEq κ]

def eraseKeys (key : α → κ) (keys : List κ) (l : List α) : List α :=
  keys.foldl (fun l k => l.eraseP (key · = k)) l

theorem eraseP_first {key : α → κ} {pre post : List α} {a : α}
    (h : ∀ b ∈ pre, key b ≠ key a) :
    (pre ++ a :: post).eraseP (key · = key a) = pre ++ post := by
  rw [List.eraseP_append_right _ (by simpa using h)]
  simp

theorem take_append_eraseKeys (key : α → κ) (test : κ → Bool) (k : ℕ) (l : List α) :
    (((l.filter fun a => test (key a)).take k) ++
      eraseKeys key (((l.filter fun a => test (key a)).take k).map key) l).Perm l := by
  induction k generalizing l with
  | zero => simp [eraseKeys]
  | succ k ih =>
    cases hf : l.filter fun a => test (key a) with
    | nil => simp [eraseKeys]
    | cons a rest =>
      obtain ⟨pre, post, rfl, hpre, ha, rfl⟩ := List.filter_eq_cons_iff.mp hf
      have hne : ∀ b ∈ pre, key b ≠ key a := by
        intro b hb he
        exact hpre b hb (he ▸ ha)
      have hrest : (pre ++ post).filter (fun a => test (key a)) =
          post.filter fun a => test (key a) := by
        rw [List.filter_append, List.filter_eq_nil_iff.mpr hpre, List.nil_append]
      have hperm := ih (pre ++ post)
      rw [hrest] at hperm
      simp only [List.take_succ_cons, List.map_cons, eraseKeys, List.foldl_cons,
        eraseP_first hne, List.cons_append]
      exact (hperm.cons a).trans List.perm_middle.symm

theorem length_take_of_left (key : α → κ) (test : κ → Bool) (k : ℕ) (l : List α) {a : α}
    (h : a ∈ eraseKeys key (((l.filter fun a => test (key a)).take k).map key) l)
    (ha : test (key a)) : ((l.filter fun a => test (key a)).take k).length = k := by
  by_contra hne
  have hle := List.length_take_le k (l.filter fun a => test (key a))
  have hall : (l.filter fun a => test (key a)).take k = l.filter fun a => test (key a) := by
    apply List.take_of_length_le
    rw [List.length_take] at hne
    omega
  have hperm := (take_append_eraseKeys key test k l).filter fun a => test (key a)
  rw [hall] at h hperm
  rw [List.filter_append, List.filter_filter] at hperm
  have hlen := hperm.length_eq
  have hmem : a ∈ (eraseKeys key ((l.filter fun a => test (key a)).map key) l).filter
      fun a => test (key a) := by
    rw [List.mem_filter]
    exact ⟨h, ha⟩
  have hpos := List.length_pos_of_mem hmem
  simp only [Bool.and_self, List.length_append] at hlen
  omega

theorem mem_of_mem_eraseKeys {key : α → κ} {keys : List κ} {l : List α} {a : α}
    (h : a ∈ eraseKeys key keys l) : a ∈ l := by
  induction keys generalizing l with
  | nil => exact h
  | cons k keys ih => exact List.mem_of_mem_eraseP (ih h)

end ListPicking
