import Mathlib.Data.List.Basic

/-! Unbalanced Feistel networks of four words. A round replaces the first word by its
combination with a function of the others and moves it to the end. When the function
does not change under reversal of the other words, the rounds with the reversed keys
undo the rounds, read from the last word to the first. -/
namespace Feistel

variable {W K : Type*} (op : W → W → W) (f : W → W → W → K → W)

abbrev Words (W : Type*) := W × W × W × W

def round (s : Words W) (k : K) : Words W :=
  (s.2.1, s.2.2.1, s.2.2.2, op s.1 (f s.2.1 s.2.2.1 s.2.2.2 k))

def rounds (keys : List K) (s : Words W) : Words W := keys.foldl (round op f) s

def rev (s : Words W) : Words W := (s.2.2.2, s.2.2.1, s.2.1, s.1)

@[simp] theorem rev_rev (s : Words W) : rev (rev s) = s := rfl

variable {op f}

theorem round_rev_round (hop : ∀ a b, op (op a b) b = a) (hf : ∀ a b c k, f a b c k = f c b a k)
    (s : Words W) (k : K) : round op f (rev (round op f s k)) k = rev s := by
  obtain ⟨a, b, c, d⟩ := s
  simp only [round, rev, hf d c b k, hop]

theorem rounds_reverse (hop : ∀ a b, op (op a b) b = a) (hf : ∀ a b c k, f a b c k = f c b a k)
    (keys : List K) (s : Words W) :
    rounds op f keys.reverse (rev (rounds op f keys s)) = rev s := by
  induction keys generalizing s with
  | nil => rfl
  | cons k keys ih =>
    rw [List.reverse_cons]
    calc rounds op f (keys.reverse ++ [k]) (rev (rounds op f keys (round op f s k)))
        = round op f (rounds op f keys.reverse (rev (rounds op f keys (round op f s k)))) k := by
          simp [rounds]
      _ = round op f (rev (round op f s k)) k := by rw [ih]
      _ = rev s := round_rev_round hop hf s k

end Feistel
