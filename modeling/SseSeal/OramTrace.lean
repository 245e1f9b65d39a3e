import SseSeal.CallTrace
import SseSeal.OramMemory

/-! The positions an instance passes to its storage, over a whole run from the constructor.
Each call touches the path to one leaf, and that leaf is an entry of the stream of random
leaves at a place that the operations before determine. The storage may fail at any call. -/
namespace OramTrace

open Bytes Objects OramReadPathEviction StateExcept PathTree OramEviction OramAccess
open OramCalls OramMemory CallTrace

abbrev callsOf (o : Oram) : List StorageCall := o.storage.calls

variable {fails : ℕ → Bool} {o : Oram} {leaf : ℕ}

theorem readBucket_issues {position : ℕ} (hp : position < o.storage.capacity)
    (hf : o.storage.fails = fails) :
    Issues callsOf fails o [.read position] (fun _ u => Frame o u)
      ((readBucket position).run o) := by
  have hc : ¬ o.storage.capacity ≤ position := Nat.not_le.mpr hp
  cases hfail : o.failsNow with
  | true =>
    simp only [readBucket, EStateM.run, if_neg hc, hfail, if_true]
    exact .error _ _ [] _ [] rfl rfl (by simp) (hf ▸ hfail)
  | false =>
    simp only [readBucket, EStateM.run, if_neg hc, hfail, Bool.false_eq_true, if_false]
    refine .ok _ _ ⟨rfl, rfl, rfl, rfl, rfl, rfl, rfl, rfl, rfl⟩ rfl ?_
    intro i hi
    obtain rfl : i = 0 := by simpa using hi
    exact hf ▸ hfail

theorem writeBucket_issues {position : ℕ} {bucket : Bucket} (hp : position < o.storage.capacity)
    (hf : o.storage.fails = fails) :
    Issues callsOf fails o [.write position] (fun _ u => Frame o u)
      ((writeBucket position bucket).run o) := by
  have hc : ¬ o.storage.capacity ≤ position := Nat.not_le.mpr hp
  cases hfail : o.failsNow with
  | true =>
    simp only [writeBucket, EStateM.run, if_neg hc, hfail, if_true]
    exact .error _ _ [] _ [] rfl rfl (by simp) (hf ▸ hfail)
  | false =>
    simp only [writeBucket, EStateM.run, if_neg hc, hfail, Bool.false_eq_true, if_false]
    refine .ok _ _ ⟨rfl, rfl, rfl, rfl, rfl, rfl, rfl, rfl, rfl⟩ rfl ?_
    intro i hi
    obtain rfl : i = 0 := by simpa using hi
    exact hf ▸ hfail

structure Geometry (levels : ℕ) (fails : ℕ → Bool) (o : Oram) : Prop where
  numLevels : o.numLevels = levels
  capacity : o.storage.capacity = 2 ^ levels - 1
  fails : o.storage.fails = fails

theorem Geometry.frame {levels : ℕ} {u : Oram} (h : Geometry levels fails o) (hf : Frame o u) :
    Geometry levels fails u :=
  ⟨hf.numLevels.trans h.numLevels, hf.capacity.trans h.capacity, hf.fails.trans h.fails⟩

section Path

variable {levels : ℕ} (hg : Geometry levels fails o) (hleaf : leaf < 2 ^ (levels - 1))
include hg hleaf

theorem position_lt {u : Oram} (hf : Frame o u) {l : ℕ} (hl : l < levels) :
    u.P leaf l < u.storage.capacity := by
  rw [P_eq, hf.numLevels, hf.capacity, hg.numLevels, hg.capacity]
  exact bucketAt_lt hleaf hl

theorem readLevel_issues {u : Oram} (hf : Frame o u) {l : ℕ} (hl : l < levels) :
    Issues callsOf fails u [.read (bucketAt levels leaf l)] (fun _ v => Frame o v)
      ((readLevel leaf l).run u) := by
  have hP : u.P leaf l = bucketAt levels leaf l := by
    rw [P_eq, hf.numLevels, hg.numLevels]
  have hread := readBucket_issues (position_lt hg hleaf hf hl) (hg.frame hf).fails
  have hstep : ∀ (blocks : Bucket) t, Frame u t →
      Issues (ε := StorageError) callsOf fails t [] (fun _ v => Frame o v)
      ((modify fun o => { o with stash := o.stash ++ blocks.filter (·.index != -1) } :
        OramM PUnit).run t) := by
    intro blocks t ht
    have hfin := hf.trans ht
    exact .silent ⟨hfin.1, hfin.2, hfin.3, hfin.4, hfin.5, hfin.6, hfin.7, hfin.8, hfin.9⟩ rfl
  rw [← hP]
  exact hread.bind hstep

theorem evictLevel_issues {u : Oram} (hf : Frame o u) {l : ℕ} (hl : l < levels) :
    Issues callsOf fails u [.write (bucketAt levels leaf l)] (fun _ v => Frame o v)
      ((evictLevel leaf l).run u) := by
  have hP : u.P leaf l = bucketAt levels leaf l := by
    rw [P_eq, hf.numLevels, hg.numLevels]
  have hlt := position_lt hg hleaf hf hl
  have hwrite : ∀ stash bucket, Issues callsOf fails u [.write (u.P leaf l)]
      (fun _ v => Frame o v)
      ((writeBucket (u.P leaf l) bucket).run { u with stash := stash }) := by
    intro stash bucket
    have hu : Frame o { u with stash := stash } :=
      ⟨hf.1, hf.2, hf.3, hf.4, hf.5, hf.6, hf.7, hf.8, hf.9⟩
    have h : Issues callsOf fails { u with stash := stash } [.write (u.P leaf l)]
        (fun _ v => Frame { u with stash := stash } v)
        ((writeBucket (u.P leaf l) bucket).run { u with stash := stash }) :=
      writeBucket_issues hlt (hg.frame hu).fails
    exact h.imp rfl fun _ _ hv => hu.trans hv
  rw [← hP]
  exact hwrite _ _

theorem accessHandler_issues (op : Operation) (i : ℕ) (newLeaf : ℤ) (newData : Str) :
    Issues callsOf fails o (pathCalls levels leaf) (fun _ u => Frame o u)
      ((accessHandler op i leaf newLeaf newData).run o) := by
  have hread : Issues callsOf fails o
      ((List.range levels).flatMap fun l => [.read (bucketAt levels leaf l)])
      (fun _ u => Frame o u) (((List.range levels).forM (readLevel leaf)).run o) :=
    .forM (fun l hl u hu => readLevel_issues hg hleaf hu (List.mem_range.mp hl)) (Frame.refl o)
  have hevict : ∀ u, Frame o u → Issues callsOf fails u
      ((List.range levels).reverse.flatMap fun l => [.write (bucketAt levels leaf l)])
      (fun _ v => Frame o v) (((List.range levels).reverse.forM (evictLevel leaf)).run u) :=
    fun u hu => .forM (fun l hl v hv => evictLevel_issues hg hleaf hv
      (List.mem_range.mp (List.mem_reverse.mp hl))) hu
  have hget : Issues (ε := StorageError) callsOf fails o [] (fun p u => p = o ∧ u = o)
      ((get : OramM Oram).run o) := .silent ⟨rfl, rfl⟩ rfl
  have hrest : Issues callsOf fails o ([] ++ (((List.range levels).flatMap fun l =>
      [.read (bucketAt levels leaf l)]) ++ ([] ++ (((List.range levels).reverse.flatMap fun l =>
      [.write (bucketAt levels leaf l)]) ++ [])))) (fun _ u => Frame o u)
      ((accessHandler op i leaf newLeaf newData).run o) := by
    apply hget.bind
    rintro p q ⟨hp, hq⟩
    subst p q
    rw [hg.numLevels]
    apply hread.bind
    intro _ u hu
    have hstash : Issues (ε := StorageError) callsOf fails u [] (fun _ v => Frame o v)
        ((accessStash op i newLeaf newData).run u) := by
      rw [accessStash_run]
      exact .silent ⟨hu.1, hu.2, hu.3, hu.4, hu.5, hu.6, hu.7, hu.8, hu.9⟩ rfl
    apply hstash.bind
    intro data v hv
    apply (hevict v hv).bind
    intro _ w hw
    exact .silent hw rfl
  simpa only [pathCalls, List.map_eq_flatMap, List.nil_append, List.append_nil] using hrest

end Path

def draws : Call → Prop
  | .access _ _ _ => True
  | .direct op node => op = .read ∨ node.id = 0

instance : DecidablePred draws := fun c =>
  match c with
  | .access _ _ _ => inferInstanceAs (Decidable True)
  | .direct op node => inferInstanceAs (Decidable (op = .read ∨ node.id = 0))

/-- The place in the stream of leaves that the leaf of each index has after a call. -/
def nextSource (source : ℕ → ℕ) (used : ℕ) : Call → ℕ → ℕ
  | .access _ i _ => Function.update source i used
  | .direct _ _ => source

def nextUsed (used : ℕ) (c : Call) : ℕ := if draws c then used + 1 else used

def sources : (ℕ → ℕ) → ℕ → List Call → List ℕ
  | _, _, [] => []
  | source, used, c :: calls =>
    source c.index :: sources (nextSource source used c) (nextUsed used c) calls

structure Sourced (levels numBlocks : ℕ) (fails : ℕ → Bool) (gen : RandomForOram)
    (source : ℕ → ℕ) (used : ℕ) (o : Oram) : Prop where
  geometry : Geometry levels fails o
  randGen : o.randGen = { gen with used := used }
  positions : ∀ j < numBlocks, o.positionMap j = leafAt gen (source j)

section Runs

variable {levels numBlocks used : ℕ} {gen : RandomForOram} {source : ℕ → ℕ} {c : Call}

theorem Sourced.frame {u : Oram} (h : Sourced levels numBlocks fails gen source used o)
    (hf : Frame o u) : Sourced levels numBlocks fails gen source used u := by
  refine ⟨h.geometry.frame hf, hf.randGen.trans h.randGen, ?_⟩
  intro j hj
  rw [hf.positionMap]
  exact h.positions j hj

theorem Sourced.prepare (h : Sourced levels numBlocks fails gen source used o) :
    Sourced levels numBlocks fails gen (nextSource source used c) (nextUsed used c)
      (c.prepare o) := by
  have hgeo : Geometry levels fails (c.prepare o) := by
    obtain ⟨h₁, h₂, h₃⟩ := h.geometry
    exact ⟨by rwa [Call.prepare_numLevels], by rwa [Call.prepare_storage],
      by rwa [Call.prepare_storage]⟩
  refine ⟨hgeo, ?_, ?_⟩
  · cases c with
    | access op i newData => simp [Call.prepare, h.randGen, RandomForOram.advance, nextUsed, draws]
    | direct op node =>
      by_cases hd : op = .read ∨ node.id = 0
      · simp [Call.prepare, h.randGen, RandomForOram.advance, nextUsed, draws, hd]
      · simp [Call.prepare, h.randGen, nextUsed, draws, hd]
  · intro j hj
    cases c with
    | access op i newData =>
      by_cases hji : j = i
      · subst hji
        simp [Call.prepare, nextSource, h.randGen, leafAt]
      · simpa [Call.prepare, nextSource, Function.update_of_ne hji] using h.positions j hj
    | direct op node =>
      have hmap : (Call.prepare o (.direct op node)).positionMap = o.positionMap := by
        simp only [Call.prepare]
        split <;> rfl
      rw [hmap]
      exact h.positions j hj

theorem call_issues (h : Sourced levels numBlocks fails gen source used o)
    (hbound : gen.bound = 2 ^ (levels - 1)) (hc : c.index < numBlocks) (codec : Codec Node) :
    Issues callsOf fails o (pathCalls levels (leafAt gen (source c.index)))
      (fun _ u => Sourced levels numBlocks fails gen (nextSource source used c)
        (nextUsed used c) u) ((c.run codec).run o) := by
  have hpos : 0 < gen.bound := hbound ▸ Nat.two_pow_pos _
  have hlt : leafAt gen (source c.index) < 2 ^ (levels - 1) :=
    hbound ▸ leaf_lt (r := { gen with used := source c.index }) hpos
  rw [Call.run_eq, h.positions _ hc]
  have hprep := h.prepare (c := c)
  refine (accessHandler_issues hprep.geometry hlt _ _ _ _).imp ?_ ?_
  · simp [callsOf]
  · intro _ u hu
    exact hprep.frame hu

theorem runAll_issues (h : Sourced levels numBlocks fails gen source used o)
    (hbound : gen.bound = 2 ^ (levels - 1)) {calls : List Call}
    (hc : ∀ c ∈ calls, c.index < numBlocks) (codec : Codec Node) :
    Issues callsOf fails o
      ((sources source used calls).flatMap fun k => pathCalls levels (leafAt gen k))
      (fun _ _ => True) ((runAll codec calls).run o) := by
  induction calls generalizing source used o with
  | nil => exact .silent trivial rfl
  | cons c calls ih =>
    apply (call_issues h hbound (hc c List.mem_cons_self) codec).bind
    intro answer u hu
    have hrest := ih hu fun d hd => hc d (List.mem_cons_of_mem _ hd)
    have hdone : Issues callsOf fails u (((sources (nextSource source used c) (nextUsed used c)
        calls).flatMap fun k => pathCalls levels (leafAt gen k)) ++ []) (fun _ _ => True)
        ((do let answers ← runAll codec calls; return answer :: answers).run u) := by
      apply hrest.bind
      intro answers v _
      exact .silent trivial rfl
    rwa [List.append_nil] at hdone

def Admissible (bucketSize numBlocks : ℕ) : Prop :=
  numBlocks ≠ 0 ∧ Nat.clog 2 numBlocks + 1 ≤ 31 ∧
    numBlocks ≤ (2 ^ (Nat.clog 2 numBlocks + 1) - 1) * bucketSize % 2 ^ 32

instance (bucketSize numBlocks : ℕ) : Decidable (Admissible bucketSize numBlocks) :=
  inferInstanceAs (Decidable (_ ∧ _ ∧ _))

def initialCalls (numBlocks : ℕ) : List StorageCall :=
  (List.range (2 ^ (Nat.clog 2 numBlocks + 1) - 1)).map .write

theorem construct_issues {bucketSize : ℕ} (storage : Storage) (randGen : RandomForOram)
    (h : Admissible bucketSize numBlocks) :
    Issues callsOf storage.fails (blank bucketSize numBlocks storage randGen)
      (initialCalls numBlocks)
      (fun _ u => Sourced (Nat.clog 2 numBlocks + 1) numBlocks storage.fails
        { randGen with bound := 2 ^ Nat.clog 2 numBlocks, used := 0 }
        (randGen.used + ·) (randGen.used + numBlocks) u)
      (construct.run (blank bucketSize numBlocks storage randGen)) := by
  obtain ⟨hzero, hlevels, hspace⟩ := h
  let o : Oram := blank bucketSize numBlocks storage randGen
  have hsize : ¬ (o.numBlocks = 0 ∨ 31 < o.numLevels) :=
    not_or.mpr ⟨hzero, Nat.not_lt.mpr hlevels⟩
  have hroom : ¬ o.numBuckets * o.bucketSize % 2 ^ 32 < o.numBlocks := Nat.not_lt.mpr hspace
  let drawn : Oram := (List.range numBlocks).foldl (fun o i => drawStep i o) o.sized
  have hdraws : ((List.range numBlocks).forM drawPosition).run o.sized = .ok ⟨⟩ drawn :=
    (forM_run (G := fun _ => True) drawPosition drawStep (fun _ _ _ _ => ⟨rfl, trivial⟩)
      trivial).1
  have hdrawn : drawn = { o.sized with
      randGen := { o.sized.randGen with used := o.sized.randGen.used + numBlocks }
      positionMap := fun j => if j < numBlocks
        then leafAt o.sized.randGen (o.sized.randGen.used + j) else o.sized.positionMap j } :=
    drawSteps numBlocks o.sized
  have hsourced : Sourced (Nat.clog 2 numBlocks + 1) numBlocks storage.fails
      { randGen with bound := 2 ^ Nat.clog 2 numBlocks, used := 0 }
      (randGen.used + ·) (randGen.used + numBlocks) drawn := by
    rw [hdrawn]
    refine ⟨⟨rfl, rfl, rfl⟩, rfl, ?_⟩
    intro j hj
    exact if_pos hj
  have hinit : Issues callsOf storage.fails drawn
      ((List.range (2 ^ (Nat.clog 2 numBlocks + 1) - 1)).flatMap fun i => [.write i])
      (fun _ u => Frame drawn u)
      (((List.range (2 ^ (Nat.clog 2 numBlocks + 1) - 1)).forM initBucket).run drawn) := by
    refine .forM ?_ (Frame.refl drawn)
    intro i hi u hu
    have hlt : i < u.storage.capacity := by
      rw [(hsourced.geometry.frame hu).capacity]
      exact List.mem_range.mp hi
    exact (writeBucket_issues hlt (hsourced.geometry.frame hu).fails).imp rfl
      fun _ _ hv => hu.trans hv
  have hrun : construct.run o =
      ((List.range (2 ^ (Nat.clog 2 numBlocks + 1) - 1)).forM initBucket).run drawn := by
    refine (run_bind_ok (run_get o)).trans ?_
    rw [if_neg hsize, if_neg hroom]
    refine (run_bind_ok (run_set o o.sized)).trans ?_
    exact run_bind_ok hdraws
  rw [hrun, initialCalls, List.map_eq_flatMap]
  refine hinit.imp ?_ ?_
  · rw [hdrawn]
    rfl
  · intro _ u hu
    exact hsourced.frame hu

def trace (codec : Codec Node) (bucketSize numBlocks : ℕ) (storage : Storage)
    (randGen : RandomForOram) (calls : List Call) : List StorageCall :=
  callsOf (final ((construct >>= fun _ => runAll codec calls).run
    (blank bucketSize numBlocks storage randGen)))

theorem trace_eq {bucketSize : ℕ} (storage : Storage) (randGen : RandomForOram)
    (h : Admissible bucketSize numBlocks) {calls : List Call}
    (hc : ∀ c ∈ calls, c.index < numBlocks) (codec : Codec Node) :
    trace codec bucketSize numBlocks storage randGen calls =
      storage.calls ++ issued storage.fails storage.calls.length (initialCalls numBlocks ++
        (sources (randGen.used + ·) (randGen.used + numBlocks) calls).flatMap fun k =>
          pathCalls (Nat.clog 2 numBlocks + 1)
            (leafAt { randGen with bound := 2 ^ Nat.clog 2 numBlocks } k)) := by
  have hissues := (construct_issues storage randGen h).bind
    fun _ u hu => runAll_issues hu rfl hc codec
  exact hissues.calls_final

end Runs

end OramTrace
