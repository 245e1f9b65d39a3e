import SseSeal.Dictionary

/-! `balance` on a subtree whose sides differ by two levels at most, whatever its shape, its keys
and its ids are. -/
namespace Rebalancing

open Bytes Objects StateExcept StringCipher AvlTree BinaryTree OramReadPathEviction OdictClient
open ClientSession ClientTree Dictionary

variable {codec : Codec Node} {c : Client} {V : ℤ → Option Node} {e : Entry}
  {l r : BinaryTree Entry}

def Recorded (V : ℤ → Option Node) (t : BinaryTree Entry) : Prop := Carries V (fun _ => True) t

/-- A subtree of which the root alone may be out of balance, by one level. -/
structure NearBalanced (V : ℤ → Option Node) (e : Entry) (l r : BinaryTree Entry) : Prop where
  recorded : Recorded V (.node e l r)
  distinct : (ids (.node e l r)).Nodup
  left : Balanced l
  right : Balanced r
  high : l.height ≤ r.height + 2
  low : r.height ≤ l.height + 2

/-- What `balance` leaves, with the node it returns. -/
structure Rebalanced (V' : ℤ → Option Node) (t t' : BinaryTree Entry) (n : Node) : Prop where
  recorded : Recorded V' t'
  entries : entries t' = entries t
  balanced : Balanced t'
  root : n.id = rootOf t'
  root_height : getHeight n = t'.height
  height : t'.height = t.height ∨ t'.height + 1 = t.height

theorem balance_rebalances (h : Shows codec c V) (ht : NearBalanced V e l r) :
    ∃ n c' V' t', (OdictClient.balance codec e.2.id).run c = .ok n c' ∧ Shows codec c' V' ∧
      Rebalanced V' (.node e l r) t' n ∧
      ∀ i, i ∉ ids (.node e l r) → V' i = V i ∧ (Cached c' i ↔ Cached c i) := by
  obtain ⟨n, c', hrun, ⟨V', hev, _, hcarries⟩, hroot⟩ :=
    balance_returns tracks_any h ht.recorded ht.distinct
  obtain ⟨hbal, hheight⟩ := balanced_balance_near (e := e) ht.left ht.right ht.high ht.low
  refine ⟨n, c', V', AvlTree.balance (.node e l r), hrun, hev.shows',
    ⟨hcarries, entries_balance, hbal, hroot.id, hroot.height, hheight⟩, ?_⟩
  intro i hi
  exact ⟨(hev.only i hi).1, (hev.only i hi).2, hev.keeps i⟩

def linked (e : Entry) (l r : BinaryTree Entry) : Node :=
  { Node.fresh e.2.id e.1 e.2.data with
    leftHeight := l.height, rightHeight := r.height, leftId := rootOf l, rightId := rootOf r }

theorem describes_linked (e : Entry) (l r : BinaryTree Entry) :
    Describes .left (clean (linked e l r)) e l r := ⟨rfl, rfl, rfl, rfl, rfl, rfl, rfl⟩

theorem Shows.link (h : Shows codec c V) (e : Entry) (l r : BinaryTree Entry)
    (hv : Valid e.2.id (linked e l r)) :
    ∃ c' V', Shows codec c' V' ∧ V' e.2.id = some (clean (linked e l r)) ∧
      ∀ i, i ≠ e.2.id → V' i = V i :=
  ⟨_, _, h.place hv, Function.update_self .., fun _ hi => Function.update_of_ne hi _ _⟩

/-- Three nodes in a chain, whose keys are in no order. -/
theorem balance_rebalances_chain :
    ∃ (o : Oram) (c : Client) (V : ℤ → Option Node) (n : Node) (c' : Client)
      (V' : ℤ → Option Node) (t' : BinaryTree Entry),
      construct.run (blank 1 2 .new ⟨0, fun k => k, 0⟩) = .ok ⟨⟩ o ∧
      Shows ObjectArchive.nodeCodec c V ∧
      (OdictClient.balance ObjectArchive.nodeCodec 1).run c = .ok n c' ∧
      Rebalanced V' (.node ([98], ⟨1, [1]⟩)
        (.node ([99], ⟨2, [2]⟩) (.node ([97], ⟨3, [3]⟩) .nil .nil) .nil) .nil) t' n := by
  obtain ⟨o, hbuild⟩ := construct_small
  obtain ⟨_, c, _, ⟨V, hidle⟩, _⟩ := fresh_idle (fun _ => rfl) hbuild .newestFirst sampleKey_length
  let low : BinaryTree Entry := .node ([97], ⟨3, [3]⟩) .nil .nil
  let mid : BinaryTree Entry := .node ([99], ⟨2, [2]⟩) low .nil
  have hbyte : ∀ k, Storable [k] := by simp [Storable, blockBytes]
  have hvalid : ∀ (i : ℤ) k d (l r : BinaryTree Entry), 0 < i → i < 2 ^ 31 →
      Valid i (linked ([k], ⟨i, [d]⟩) l r) :=
    fun i k d l r hpos hlt => ⟨rfl, hpos, hlt, hbyte k, hbyte d⟩
  obtain ⟨c₁, V₁, h₁, hlow, _⟩ := Shows.link hidle.shows' ([97], ⟨3, [3]⟩) .nil .nil
    (hvalid 3 97 3 _ _ (by decide) (by decide))
  obtain ⟨c₂, V₂, h₂, hmid, hsame₂⟩ := Shows.link h₁ ([99], ⟨2, [2]⟩) low .nil
    (hvalid 2 99 2 _ _ (by decide) (by decide))
  obtain ⟨c₃, V₃, h₃, htop, hsame₃⟩ := Shows.link h₂ ([98], ⟨1, [1]⟩) mid .nil
    (hvalid 1 98 1 _ _ (by decide) (by decide))
  have hlow₃ : V₃ 3 = some (clean (linked ([97], ⟨3, [3]⟩) .nil .nil)) := by
    rw [hsame₃ 3 (by decide), hsame₂ 3 (by decide)]
    exact hlow
  have hmid₃ : V₃ 2 = some (clean (linked ([99], ⟨2, [2]⟩) low .nil)) := by
    rw [hsame₃ 2 (by decide)]
    exact hmid
  have hrecorded : Recorded V₃ (.node ([98], ⟨1, [1]⟩) mid .nil) :=
    ⟨⟨_, htop, describes_linked _ _ _⟩, fun _ _ _ => trivial,
      ⟨⟨_, hmid₃, describes_linked _ _ _⟩, fun _ _ _ => trivial,
        ⟨⟨_, hlow₃, describes_linked _ _ _⟩, fun _ _ _ => trivial, trivial, trivial⟩, trivial⟩,
      trivial⟩
  obtain ⟨n, c', V', t', hrun, _, hbal, _⟩ := balance_rebalances h₃
    ⟨hrecorded, by decide, ⟨by decide, by decide, ⟨by decide, by decide, trivial, trivial⟩,
      trivial⟩, trivial, by decide, by decide⟩
  exact ⟨o, c₃, V₃, n, c', V', t', hbuild, h₃, hrun, hbal⟩

end Rebalancing
