import Mathlib.Data.Finset.Card

/-! A bounded map that evicts the key used least recently, as its history tells: what is held
under a key, and when a key was last used, are read off the operations so far. -/
namespace LruHistory

variable {K V : Type*}

inductive Op (K V : Type*)
  | put (key : K) (value : V)
  | get (key : K)
  | clear

/-- An operation, where a put has the key it evicted. -/
inductive Event (K V : Type*)
  | put (key : K) (value : V) (evicted : Option K)
  | get (key : K)
  | clear

variable [DecidableEq K]

/-- The last value put under a key, unless it was evicted or cleared since. The newest event of
a history is the first. -/
def value : List (Event K V) → K → Option V
  | [], _ => none
  | .put key v evicted :: h, i =>
    if evicted = some i then none else if i = key then some v else value h i
  | .get _ :: h, i => value h i
  | .clear :: _, _ => none

def keys : List (Event K V) → Finset K
  | [] => ∅
  | .put key _ evicted :: h => (insert key (keys h)).filter fun i => evicted ≠ some i
  | .get _ :: h => keys h
  | .clear :: _ => ∅

def lastUse : List (Event K V) → K → ℕ
  | [], _ => 0
  | .put key _ _ :: h, i => if i = key then h.length + 1 else lastUse h i
  | .get key :: h, i => if i = key then h.length + 1 else lastUse h i
  | .clear :: h, i => lastUse h i

/-- An operation with its result, if it has one. A put returns what it evicts: of the keys held
then, the one with the least recent use. -/
inductive Step (maxSize : ℕ) (h : List (Event K V)) :
    Op K V → Option (Option V) → List (Event K V) → Prop
  | get (key : K) : Step maxSize h (.get key) (some (value h key)) (.get key :: h)
  | clear : Step maxSize h .clear none (.clear :: h)
  | put (key : K) (v : V) (hfit : (insert key (keys h)).card ≤ maxSize) :
      Step maxSize h (.put key v) (some none) (.put key v none :: h)
  | evict (key : K) (v : V) (back : K) (hfull : maxSize < (insert key (keys h)).card)
      (hback : back ∈ insert key (keys h))
      (hleast : ∀ i ∈ insert key (keys h), i ≠ back →
        lastUse (.put key v none :: h) back < lastUse (.put key v none :: h) i) :
      Step maxSize h (.put key v) (some (value (.put key v none :: h) back))
        (.put key v (some back) :: h)

inductive Run (maxSize : ℕ) :
    List (Event K V) → List (Op K V) → List (Option (Option V)) → List (Event K V) → Prop
  | nil (h : List (Event K V)) : Run maxSize h [] [] h
  | cons {h h₁ h₂ : List (Event K V)} {op : Op K V} {ops : List (Op K V)}
      {out : Option (Option V)} {outs : List (Option (Option V))}
      (hstep : Step maxSize h op out h₁) (hrun : Run maxSize h₁ ops outs h₂) :
      Run maxSize h (op :: ops) (out :: outs) h₂

variable {h h₁ h₂ : List (Event K V)} {maxSize : ℕ} {op : Op K V} {ops : List (Op K V)} {i : K}

theorem value_isSome : (value h i).isSome ↔ i ∈ keys h := by
  induction h with
  | nil => simp [value, keys]
  | cons e h ih =>
    cases e with
    | put key v evicted =>
      rw [value, keys, Finset.mem_filter, Finset.mem_insert]
      by_cases he : evicted = some i
      · simp [he]
      · by_cases hi : i = key
        · simp [hi]
        · simp [he, hi, ih]
    | get key => exact ih
    | clear => simp [value, keys]

theorem lastUse_le (h : List (Event K V)) (i : K) : lastUse h i ≤ h.length := by
  induction h with
  | nil => exact le_rfl
  | cons e h ih =>
    cases e with
    | put key v evicted =>
      rw [lastUse]
      split
      · exact le_rfl
      · exact ih.trans (Nat.le_succ _)
    | get key =>
      rw [lastUse]
      split
      · exact le_rfl
      · exact ih.trans (Nat.le_succ _)
    | clear => exact ih.trans (Nat.le_succ _)

theorem keys_evict {key back : K} {v : V} :
    keys (.put key v (some back) :: h) = (insert key (keys h)).erase back := by
  ext i
  simp [keys, Finset.mem_erase, eq_comm, and_comm]

theorem keys_put {key : K} {v : V} : keys (.put key v none :: h) = insert key (keys h) := by
  ext i
  simp [keys]

theorem Step.card_le {out : Option (Option V)} (hstep : Step maxSize h op out h₁)
    (hle : (keys h).card ≤ maxSize) : (keys h₁).card ≤ maxSize := by
  cases hstep with
  | get key => exact hle
  | clear => exact Nat.zero_le _
  | put key v hfit =>
    rw [keys_put]
    exact hfit
  | evict key v back hfull hback hleast =>
    have hinsert := Finset.card_insert_le key (keys h)
    rw [keys_evict, Finset.card_erase_of_mem hback]
    omega

theorem Run.card_le {outs : List (Option (Option V))} (hrun : Run maxSize h ops outs h₁)
    (hle : (keys h).card ≤ maxSize) : (keys h₁).card ≤ maxSize := by
  induction hrun with
  | nil h => exact hle
  | cons hstep _ ih => exact ih (hstep.card_le hle)

/-- The result of an operation is determined by the history. -/
theorem Step.unique {out out' : Option (Option V)} (hstep : Step maxSize h op out h₁)
    (hstep' : Step maxSize h op out' h₂) : out = out' ∧ h₁ = h₂ := by
  cases hstep with
  | get key =>
    cases hstep'
    exact ⟨rfl, rfl⟩
  | clear =>
    cases hstep'
    exact ⟨rfl, rfl⟩
  | put key v hfit =>
    cases hstep' with
    | put => exact ⟨rfl, rfl⟩
    | evict _ _ back hfull => exact absurd hfit hfull.not_ge
  | evict key v back hfull hback hleast =>
    cases hstep' with
    | put _ _ hfit => exact absurd hfit hfull.not_ge
    | evict _ _ back' _ hback' hleast' =>
      have heq : back = back' := by
        by_contra hne
        have hlt := hleast back' hback' (Ne.symm hne)
        exact absurd (hleast' back hback hne) hlt.asymm
      subst heq
      exact ⟨rfl, rfl⟩

theorem Run.unique {outs outs' : List (Option (Option V))} (hrun : Run maxSize h ops outs h₁)
    (hrun' : Run maxSize h ops outs' h₂) : outs = outs' := by
  induction hrun generalizing outs' with
  | nil h =>
    cases hrun'
    rfl
  | cons hstep _ ih =>
    cases hrun' with
    | cons hstep' hrun' =>
      obtain ⟨rfl, rfl⟩ := hstep.unique hstep'
      rw [ih hrun']

end LruHistory
