import SseSeal.PathTree
import Mathlib.Algebra.BigOperators.Group.Finset.Basic
import Mathlib.Algebra.Order.BigOperators.Group.Finset
import Mathlib.Algebra.Order.Group.Multiset
import Mathlib.Data.Finset.Lattice.Fold
import Mathlib.Data.Finset.Powerset
import Mathlib.Order.Lattice.Nat
import Mathlib.Algebra.Group.Action.Defs

/-! Items on the paths of a tree whose buckets have limited room, and a stash for those that
find none. The home of an item is the level it would have with unlimited room. If the buckets
between an item and its home are full, the stash is no larger than the homes force it to be. -/
namespace PathOverflow

open PathTree

variable {β : Type*} {levels room a b y k l : ℕ} {T : Finset ℕ}

def meet (levels a b : ℕ) : ℕ :=
  Nat.findGreatest (fun l => bucketAt levels a l = bucketAt levels b l) (levels - 1)

theorem meet_lt (hl : 0 < levels) : meet levels a b < levels := by
  have hle : meet levels a b ≤ levels - 1 := Nat.findGreatest_le _
  omega

theorem bucketAt_eq_iff (ha : a < 2 ^ (levels - 1)) (hb : b < 2 ^ (levels - 1))
    (hl : l < levels) : bucketAt levels a l = bucketAt levels b l ↔ l ≤ meet levels a b := by
  constructor
  · intro h
    exact Nat.le_findGreatest (by omega) h
  · intro h
    have hroot : bucketAt levels a 0 = bucketAt levels b 0 := by
      rw [bucketAt_root ha, bucketAt_root hb]
    have hmeet : bucketAt levels a (meet levels a b) = bucketAt levels b (meet levels a b) :=
      Nat.findGreatest_spec (P := fun l => bucketAt levels a l = bucketAt levels b l)
        (Nat.zero_le _) hroot
    exact bucketAt_shared h (meet_lt (by omega)) hmeet

theorem bucketAt_mem_path (ha : a < 2 ^ (levels - 1)) (hy : y < 2 ^ (levels - 1))
    (hl : l < levels) : bucketAt levels a l ∈ path levels y ↔ l ≤ meet levels a y := by
  rw [← bucketAt_eq_iff ha hy hl, mem_path]
  constructor
  · intro h
    obtain ⟨k, hk, he⟩ := h
    rwa [← level_eq ha hy hl hk he] at he
  · intro h
    exact ⟨l, hl, h⟩

/-- A set of buckets that has the parent of each of its buckets. -/
def Rooted (levels : ℕ) (T : Finset ℕ) : Prop :=
  ∀ p ∈ T, p < 2 ^ levels - 1 ∧ (p ≠ 0 → parent p ∈ T)

instance decidableRooted (levels : ℕ) : DecidablePred (Rooted levels) := fun T =>
  inferInstanceAs (Decidable (∀ p ∈ T, p < 2 ^ levels - 1 ∧ (p ≠ 0 → parent p ∈ T)))

def rootedTrees (levels : ℕ) : Finset (Finset ℕ) :=
  (Finset.range (2 ^ levels - 1)).powerset.filter (Rooted levels)

theorem mem_rootedTrees : T ∈ rootedTrees levels ↔ Rooted levels T := by
  rw [rootedTrees, Finset.mem_filter, Finset.mem_powerset]
  constructor
  · exact And.right
  · intro h
    exact ⟨fun p hp => Finset.mem_range.mpr (h p hp).1, h⟩

theorem bucketAt_succ_ne_zero : bucketAt levels a (l + 1) ≠ 0 := by
  have hlow : 2 ^ (l + 1) - 1 ≤ bucketAt levels a (l + 1) := bucketAt_ge
  have hpos : 0 < 2 ^ l := Nat.two_pow_pos l
  rw [pow_succ] at hlow
  omega

theorem Rooted.mem_of_le (h : Rooted levels T) (hl : l < levels) (hk : k ≤ l)
    (hin : bucketAt levels a l ∈ T) : bucketAt levels a k ∈ T := by
  induction l with
  | zero => rwa [Nat.le_zero.mp hk]
  | succ l ih =>
    rcases Nat.lt_or_eq_of_le hk with hlt | rfl
    · have hup := (h _ hin).2 bucketAt_succ_ne_zero
      rw [parent_bucketAt hl] at hup
      exact ih (by omega) (by omega) hup
    · exact hin

structure Layout (β : Type*) where
  stash : Multiset β
  bucket : ℕ → Multiset β

namespace Layout

def items (levels : ℕ) (L : Layout β) : Multiset β :=
  L.stash + ∑ p ∈ Finset.range (2 ^ levels - 1), L.bucket p

def Full (room : ℕ) (L : Layout β) (p : ℕ) : Prop := (L.bucket p).card = room

def Opened (levels y : ℕ) (L : Layout β) (b : β) : Prop :=
  b ∈ L.stash ∨ ∃ p ∈ path levels y, b ∈ L.bucket p

end Layout

def crowd (levels : ℕ) (leaf home : β → ℕ) (items : Multiset β) (T : Finset ℕ) : ℕ :=
  items.countP fun b => bucketAt levels (leaf b) (home b) ∈ T

/-- By how much a subtree at the root is overcrowded, at most. -/
def overflow (levels room : ℕ) (leaf home : β → ℕ) (items : Multiset β) : ℕ :=
  (rootedTrees levels).sup fun T => crowd levels leaf home items T - room * T.card

/-- Every item of a bucket is at its home or above it. -/
structure Fits (levels room : ℕ) (leaf home : β → ℕ) (L : Layout β) : Prop where
  sized : ∀ p < 2 ^ levels - 1, (L.bucket p).card ≤ room
  home_lt : ∀ b, home b < levels
  leaf_lt : ∀ b, leaf b < 2 ^ (levels - 1)
  above : ∀ p < 2 ^ levels - 1, ∀ b ∈ L.bucket p, ∃ v ≤ home b, p = bucketAt levels (leaf b) v

/-- The buckets between an item and its home are full. -/
structure Tight (levels room : ℕ) (leaf home : β → ℕ) (L : Layout β) : Prop
    extends Fits levels room leaf home L where
  stash : ∀ b ∈ L.stash, ∀ l ≤ home b, L.Full room (bucketAt levels (leaf b) l)
  below : ∀ v < levels, ∀ b ∈ L.bucket (bucketAt levels (leaf b) v), ∀ l, v < l → l ≤ home b →
    L.Full room (bucketAt levels (leaf b) l)

variable {leaf home : β → ℕ} {L : Layout β}

theorem crowd_items : crowd levels leaf home (L.items levels) T =
    crowd levels leaf home L.stash T +
      ∑ p ∈ Finset.range (2 ^ levels - 1), crowd levels leaf home (L.bucket p) T := by
  rw [Layout.items, crowd, Multiset.countP_add]
  congr 1
  exact map_sum (Multiset.countPAddMonoidHom
    fun b => bucketAt levels (leaf b) (home b) ∈ T) L.bucket _

theorem Fits.crowd_bucket (h : Fits levels room leaf home L) (hT : Rooted levels T) {p : ℕ}
    (hp : p < 2 ^ levels - 1) (hout : p ∉ T) : crowd levels leaf home (L.bucket p) T = 0 := by
  rw [crowd, Multiset.countP_eq_zero]
  intro b hb hin
  obtain ⟨v, hv, rfl⟩ := h.above p hp b hb
  exact hout (hT.mem_of_le (h.home_lt b) hv hin)

theorem crowd_range (h : Fits levels room leaf home L) (hT : Rooted levels T) :
    ∑ p ∈ Finset.range (2 ^ levels - 1), crowd levels leaf home (L.bucket p) T =
      ∑ p ∈ T, crowd levels leaf home (L.bucket p) T := by
  have hsub : T ⊆ Finset.range (2 ^ levels - 1) := fun p hp => Finset.mem_range.mpr (hT p hp).1
  refine (Finset.sum_subset hsub ?_).symm
  intro p hp hout
  exact h.crowd_bucket hT (Finset.mem_range.mp hp) hout

theorem Fits.crowd_le (h : Fits levels room leaf home L) (hT : Rooted levels T) :
    crowd levels leaf home (L.items levels) T ≤ room * T.card + L.stash.card := by
  have hbuckets : ∑ p ∈ T, crowd levels leaf home (L.bucket p) T ≤ T.card • room := by
    apply Finset.sum_le_card_nsmul
    intro p hp
    exact (Multiset.countP_le_card _ _).trans (h.sized p (hT p hp).1)
  have hstash : crowd levels leaf home L.stash T ≤ L.stash.card := Multiset.countP_le_card _ _
  rw [crowd_items, crowd_range h hT]
  rw [smul_eq_mul, Nat.mul_comm] at hbuckets
  omega

/-- No layout with these homes has a smaller stash. -/
theorem Fits.overflow_le (h : Fits levels room leaf home L) :
    overflow levels room leaf home (L.items levels) ≤ L.stash.card := by
  apply Finset.sup_le
  intro T hT
  have hle := h.crowd_le (mem_rootedTrees.mp hT)
  omega

def FullToRoot (levels room : ℕ) (L : Layout β) (p : ℕ) : Prop :=
  ∃ a < 2 ^ (levels - 1), ∃ l < levels, p = bucketAt levels a l ∧
    ∀ k ≤ l, L.Full room (bucketAt levels a k)

open scoped Classical in
noncomputable def fullTree (levels room : ℕ) (L : Layout β) : Finset ℕ :=
  (Finset.range (2 ^ levels - 1)).filter (FullToRoot levels room L)

theorem mem_fullTree {p : ℕ} : p ∈ fullTree levels room L ↔ FullToRoot levels room L p := by
  classical
  rw [fullTree, Finset.mem_filter, Finset.mem_range]
  constructor
  · exact And.right
  · intro h
    obtain ⟨a, ha, l, hl, rfl, hfull⟩ := h
    exact ⟨bucketAt_lt ha hl, a, ha, l, hl, rfl, hfull⟩

theorem fullTree_rooted : Rooted levels (fullTree levels room L) := by
  intro p hp
  obtain ⟨a, ha, l, hl, rfl, hfull⟩ := mem_fullTree.mp hp
  refine ⟨bucketAt_lt ha hl, ?_⟩
  intro hne
  cases l with
  | zero => exact absurd (bucketAt_root ha) hne
  | succ l =>
    rw [parent_bucketAt hl, mem_fullTree]
    exact ⟨a, ha, l, by omega, rfl, fun k hk => hfull k (by omega)⟩

namespace Tight

variable (h : Tight levels room leaf home L)
include h

theorem stash_home {b : β} (hb : b ∈ L.stash) :
    bucketAt levels (leaf b) (home b) ∈ fullTree levels room L :=
  mem_fullTree.mpr ⟨leaf b, h.leaf_lt b, home b, h.home_lt b, rfl, h.stash b hb⟩

theorem bucket_home {p : ℕ} (hp : p ∈ fullTree levels room L) {b : β} (hb : b ∈ L.bucket p) :
    bucketAt levels (leaf b) (home b) ∈ fullTree levels room L := by
  obtain ⟨a, ha, l, hl, rfl, hfull⟩ := mem_fullTree.mp hp
  obtain ⟨v, hv, he⟩ := h.above _ (bucketAt_lt ha hl) b hb
  obtain rfl := level_eq ha (h.leaf_lt b) hl (hv.trans_lt (h.home_lt b)) he
  refine mem_fullTree.mpr ⟨leaf b, h.leaf_lt b, home b, h.home_lt b, rfl, ?_⟩
  intro k hk
  by_cases hkl : k ≤ l
  · rw [← bucketAt_shared hkl hl he]
    exact hfull k hkl
  · rw [he] at hb
    exact h.below l hl b hb k (by omega) hk

theorem crowd_fullTree : crowd levels leaf home (L.items levels) (fullTree levels room L) =
    room * (fullTree levels room L).card + L.stash.card := by
  have hbuckets : ∀ p ∈ fullTree levels room L,
      crowd levels leaf home (L.bucket p) (fullTree levels room L) = room := by
    intro p hp
    have hall : crowd levels leaf home (L.bucket p) (fullTree levels room L) =
        (L.bucket p).card := Multiset.countP_eq_card.mpr fun b hb => h.bucket_home hp hb
    obtain ⟨a, _, l, _, rfl, hfull⟩ := mem_fullTree.mp hp
    rw [hall]
    exact hfull l le_rfl
  have hstash : crowd levels leaf home L.stash (fullTree levels room L) = L.stash.card :=
    Multiset.countP_eq_card.mpr fun b hb => h.stash_home hb
  rw [crowd_items, crowd_range h.toFits fullTree_rooted, Finset.sum_congr rfl hbuckets, hstash,
    Finset.sum_const, smul_eq_mul, Nat.mul_comm, Nat.add_comm]

theorem stash_card :
    L.stash.card = overflow levels room leaf home (L.items levels) := by
  apply le_antisymm
  · have hcrowd := h.crowd_fullTree
    have hle : crowd levels leaf home (L.items levels) (fullTree levels room L) -
        room * (fullTree levels room L).card ≤ overflow levels room leaf home (L.items levels) :=
      Finset.le_sup (f := fun T => crowd levels leaf home (L.items levels) T - room * T.card)
        (mem_rootedTrees.mpr fullTree_rooted)
    omega
  · exact h.toFits.overflow_le

end Tight

variable {items : Multiset β}

theorem overflow_antitone {more : ℕ} (hroom : room ≤ more) :
    overflow levels more leaf home items ≤ overflow levels room leaf home items := by
  apply Finset.sup_mono_fun
  intro T _
  exact Nat.sub_le_sub_left (Nat.mul_le_mul_right _ hroom) _

theorem overflow_le_sub : overflow levels room leaf home items ≤ items.card - room := by
  apply Finset.sup_le
  intro T hT
  have hle : crowd levels leaf home items T ≤ items.card := Multiset.countP_le_card _ _
  rcases T.eq_empty_or_nonempty with rfl | hne
  · have hnone : crowd levels leaf home items ∅ = 0 :=
      Multiset.countP_eq_zero.mpr fun _ _ => Finset.notMem_empty _
    omega
  · have hroot : room ≤ room * T.card := Nat.le_mul_of_pos_right _ hne.card_pos
    omega

structure Packed (levels room : ℕ) (leaf : β → ℕ) (y : ℕ) (L : Layout β) : Prop where
  sized : ∀ p < 2 ^ levels - 1, (L.bucket p).card ≤ room
  lodged : ∀ l < levels, ∀ b ∈ L.bucket (bucketAt levels y l),
    bucketAt levels (leaf b) l = bucketAt levels y l
  stash : ∀ b ∈ L.stash, ∀ l < levels, bucketAt levels (leaf b) l = bucketAt levels y l →
    L.Full room (bucketAt levels y l)
  deeper : ∀ l < levels, ∀ b ∈ L.bucket (bucketAt levels y l), ∀ k, l < k → k < levels →
    bucketAt levels (leaf b) k = bucketAt levels y k → L.Full room (bucketAt levels y k)

structure Settled (levels y : ℕ) (leaf home leaf' home' : β → ℕ) (b : β) : Prop where
  leaf_eq : leaf' b = leaf b
  home_eq : home' b = max (home b) (meet levels (leaf b) y)

section Repack

variable {leaf' home' : β → ℕ} {L' : Layout β} {b : β}

theorem Tight.full_off (h : Tight levels room leaf home L) (hy : y < 2 ^ (levels - 1))
    (hb : L.Opened levels y b) (hlow : meet levels (leaf b) y < l) (hl : l ≤ home b) :
    L.Full room (bucketAt levels (leaf b) l) := by
  rcases hb with hb | ⟨p, hp, hb⟩
  · exact h.stash b hb l hl
  · have hlt : p < 2 ^ levels - 1 := by
      obtain ⟨k, hk, rfl⟩ := mem_path.mp hp
      exact bucketAt_lt hy hk
    obtain ⟨v, hv, rfl⟩ := h.above p hlt b hb
    have hvl : v < levels := hv.trans_lt (h.home_lt b)
    have hmeet := (bucketAt_mem_path (h.leaf_lt b) hy hvl).mp hp
    exact h.below v hvl b hb l (by omega) hl

/-- Reading a path and filling it as far as possible leaves every bucket between an item and
its new home full. -/
theorem Tight.repack (h : Tight levels room leaf home L) (hy : y < 2 ^ (levels - 1))
    (hleaf : ∀ b, leaf' b < 2 ^ (levels - 1)) (hhome : ∀ b, home' b < levels)
    (hpacked : Packed levels room leaf' y L')
    (hoff : ∀ p, p ∉ path levels y → L'.bucket p = L.bucket p)
    (hrest : ∀ p < 2 ^ levels - 1, p ∉ path levels y → ∀ b ∈ L.bucket p,
      Settled levels y leaf home leaf' home' b)
    (hopened : ∀ b, L'.Opened levels y b → home' b = meet levels (leaf' b) y ∨
      L.Opened levels y b ∧ Settled levels y leaf home leaf' home' b) :
    Tight levels room leaf' home' L' := by
  have hfull : ∀ {p}, p ∉ path levels y → L.Full room p → L'.Full room p := by
    intro p hp hf
    rwa [Layout.Full, hoff p hp]
  have hpath : ∀ b, ∀ l < levels, bucketAt levels (leaf' b) l ∈ path levels y ↔
      l ≤ meet levels (leaf' b) y := fun b l hl => bucketAt_mem_path (hleaf b) hy hl
  -- a home is no higher than the meeting point of the paths
  have hmeet : ∀ b, L'.Opened levels y b → meet levels (leaf' b) y ≤ home' b := by
    intro b hb
    rcases hopened b hb with he | ⟨_, hset⟩
    · exact he.ge
    · rw [hset.home_eq, hset.leaf_eq]
      exact Nat.le_max_right _ _
  have hdeep : ∀ b, L'.Opened levels y b → ∀ l ≤ home' b, meet levels (leaf' b) y < l →
      L'.Full room (bucketAt levels (leaf' b) l) := by
    intro b hb l hl hlow
    have hout := (hpath b l (hl.trans_lt (hhome b))).not.mpr (by omega)
    rcases hopened b hb with he | ⟨hold, hset⟩
    · omega
    · rw [hset.leaf_eq] at hlow hout ⊢
      rw [hset.home_eq] at hl
      exact hfull hout (h.full_off hy hold hlow (by omega))
  refine ⟨⟨hpacked.sized, hhome, hleaf, ?_⟩, ?_, ?_⟩
  · intro p hp b hb
    by_cases hon : p ∈ path levels y
    · have hop : L'.Opened levels y b := Or.inr ⟨p, hon, hb⟩
      obtain ⟨l, hl, rfl⟩ := mem_path.mp hon
      have he := hpacked.lodged l hl b hb
      have hle := (bucketAt_eq_iff (hleaf b) hy hl).mp he
      exact ⟨l, hle.trans (hmeet b hop), he.symm⟩
    · rw [hoff p hon] at hb
      obtain ⟨v, hv, he⟩ := h.above p hp b hb
      have hset := hrest p hp hon b hb
      refine ⟨v, ?_, ?_⟩
      · rw [hset.home_eq]
        exact hv.trans (Nat.le_max_left _ _)
      · rw [hset.leaf_eq]
        exact he
  · intro b hb l hl
    by_cases hle : l ≤ meet levels (leaf' b) y
    · have hlt : l < levels := hl.trans_lt (hhome b)
      have he := (bucketAt_eq_iff (hleaf b) hy hlt).mpr hle
      rw [he]
      exact hpacked.stash b hb l hlt he
    · exact hdeep b (Or.inl hb) l hl (by omega)
  · intro v hv b hb l hvl hl
    have hlt : l < levels := hl.trans_lt (hhome b)
    by_cases hon : bucketAt levels (leaf' b) v ∈ path levels y
    · have hop : L'.Opened levels y b := Or.inr ⟨_, hon, hb⟩
      by_cases hle : l ≤ meet levels (leaf' b) y
      · have hev := (bucketAt_eq_iff (hleaf b) hy hv).mpr (by omega)
        have hel := (bucketAt_eq_iff (hleaf b) hy hlt).mpr hle
        rw [hev] at hb
        rw [hel]
        exact hpacked.deeper v hv b hb l hvl hlt hel
      · exact hdeep b hop l hl (by omega)
    · rw [hoff _ hon] at hb
      have hset := hrest _ (bucketAt_lt (hleaf b) hv) hon b hb
      have hout := (hpath b v hv).not.mp hon
      have hlow := (hpath b l hlt).not.mpr (by omega)
      rw [hset.home_eq, ← hset.leaf_eq] at hl
      rw [hset.leaf_eq] at hb hlow ⊢
      exact hfull hlow (h.below v hv b hb l hvl (by omega))

end Repack

end PathOverflow
