import SseSeal.OramEviction

/-! One call of `access_handler`: what it answers, what it does to the blocks held, where
they lie afterwards, and which positions it touches. -/
namespace OramAccess

open Bytes Objects OramReadPathEviction StateExcept PathTree ListPicking OramEviction

variable {leaf : ℕ} {levels : List ℕ} {o : Oram}

def stashAnswer (op : Operation) (index : ℤ) (stash : List Block) : Str :=
  match op, stash.find? (·.index = index) with
  | .read, some b => b.data
  | _, _ => []

def stashUpdate (op : Operation) (index newLeaf : ℤ) (newData : Str) (stash : List Block) :
    List Block :=
  match op, stash.find? (·.index = index) with
  | .write, none => stash ++ [⟨newLeaf, index, newData⟩]
  | .write, some _ => overwriteFirst index newData stash
  | .read, _ => stash

theorem accessStash_run (op : Operation) (i : ℕ) (newLeaf : ℤ) (newData : Str) (o : Oram) :
    (accessStash op i newLeaf newData).run o =
      .ok (stashAnswer op (toInt i) o.stash)
        { o with stash := stashUpdate op (toInt i) newLeaf newData o.stash } := by
  cases op <;> cases hf : o.stash.find? (·.index = toInt i) <;>
    simp [accessStash, EStateM.run, stashAnswer, stashUpdate, hf]

def written (op : Operation) (newData : Str) (b : Block) : Block :=
  match op with
  | .read => b
  | .write => { b with data := newData }

@[simp] theorem written_index (op : Operation) (newData : Str) (b : Block) :
    (written op newData b).index = b.index := by
  cases op <;> rfl

theorem overwriteFirst_split {index : ℤ} {newData : Str} {pre post : List Block} {b : Block}
    (hpre : ∀ c ∈ pre, c.index ≠ index) (hb : b.index = index) :
    overwriteFirst index newData (pre ++ b :: post) =
      pre ++ { b with data := newData } :: post := by
  induction pre with
  | nil => simp [overwriteFirst, hb]
  | cons c pre ih =>
    have hc := hpre c List.mem_cons_self
    rw [List.cons_append, overwriteFirst, if_neg hc,
      ih (fun d hd => hpre d (List.mem_cons_of_mem _ hd))]
    rfl

/-- The first block of the stash with the index answers a read and takes a write. -/
theorem stash_hit (op : Operation) {index : ℤ} (newLeaf : ℤ) (newData : Str)
    {stash : List Block} (h : ∃ b ∈ stash, b.index = index) :
    ∃ b pre post, stash = pre ++ b :: post ∧ b.index = index ∧
      stashUpdate op index newLeaf newData stash = pre ++ written op newData b :: post ∧
      stashAnswer op index stash = match op with | .read => b.data | .write => [] := by
  cases hf : stash.find? (·.index = index) with
  | none =>
    obtain ⟨b, hb, hi⟩ := h
    exact absurd hi (by simpa using List.find?_eq_none.mp hf b hb)
  | some b =>
    obtain ⟨hb, pre, post, rfl, hpre⟩ := List.find?_eq_some_iff_append.mp hf
    have hb' : b.index = index := by simpa using hb
    have hpre' : ∀ c ∈ pre, c.index ≠ index := fun c hc => by simpa using hpre c hc
    refine ⟨b, pre, post, rfl, hb', ?_, ?_⟩
    · cases op
      · simp [stashUpdate, written]
      · simp only [stashUpdate, hf, written]
        exact overwriteFirst_split hpre' hb'
    · cases op <;> simp [stashAnswer, hf]

theorem stash_miss (op : Operation) {index : ℤ} (newLeaf : ℤ) (newData : Str)
    {stash : List Block} (h : ¬ ∃ b ∈ stash, b.index = index) :
    stashUpdate op index newLeaf newData stash =
        stash ++ (match op with | .read => [] | .write => [⟨newLeaf, index, newData⟩]) ∧
      stashAnswer op index stash = [] := by
  have hf : stash.find? (·.index = index) = none :=
    List.find?_eq_none.mpr fun b hb => by simpa using fun hi => h ⟨b, hb, hi⟩
  cases op <;> simp [stashUpdate, stashAnswer, hf]

/-- The blocks held before and after a call that finds a stash, and its answer. -/
inductive Effect (op : Operation) (index newLeaf : ℤ) (newData : Str) (stash : List Block)
    (before after : Multiset Block) : Str → Prop where
  | hit (b : Block) (rest : Multiset Block) : b.index = index → before = b ::ₘ rest →
      after = written op newData b ::ₘ rest →
      Effect op index newLeaf newData stash before after
        (match op with | .read => b.data | .write => [])
  | miss : (∀ b ∈ stash, b.index ≠ index) → (match op with
        | .read => after = before
        | .write => after = ⟨newLeaf, index, newData⟩ ::ₘ before) →
      Effect op index newLeaf newData stash before after []

theorem evictPath_off {p : ℕ} (hp : p ∉ levels.map (o.P leaf)) :
    (evictPath leaf levels o).storage.buckets p = o.storage.buckets p := by
  induction levels generalizing o with
  | nil => rfl
  | cons l levels ih =>
    have hf := evictStep_frame leaf l o
    rw [List.map_cons, List.mem_cons, not_or] at hp
    refine (ih (o := evictStep leaf l o) (hf.P ▸ hp.2)).trans ?_
    simp [evictStep, Oram.storeBucket, Oram.logCall, evictStash, Function.update_of_ne hp.1]

def Lodged (o : Oram) (p : ℕ) (b : Block) : Prop :=
  ∃ l < o.numLevels, p = o.P (o.positionMap (toUnsigned b.index)) l

theorem Frame.lodged {o u : Oram} (h : Frame o u) {p : ℕ} {b : Block} :
    Lodged u p b ↔ Lodged o p b := by
  simp only [Lodged, h.numLevels, h.positionMap, h.P]

theorem evictStep_lodged {l : ℕ} (hl : l < o.numLevels) (hs : ∀ b ∈ o.stash, b.index ≠ -1)
    {b : Block} (hb : b ∈ real ((evictStep leaf l o).storage.buckets (o.P leaf l))) :
    Lodged o (o.P leaf l) b := by
  have hmem : b ∈ evicted leaf l o := by
    rw [← real_fullBucket hs]
    simpa [evictStep, Oram.storeBucket] using hb
  refine ⟨l, hl, ?_⟩
  simpa using (List.mem_filter.mp (List.mem_of_mem_take hmem)).2

theorem evictPath_lodged {away : Finset ℕ} (h : OpenLevels o leaf levels away)
    (hlt : ∀ l ∈ levels, l < o.numLevels) (hs : ∀ b ∈ o.stash, b.index ≠ -1)
    {p : ℕ} (hp : p ∈ levels.map (o.P leaf)) {b : Block}
    (hb : b ∈ real ((evictPath leaf levels o).storage.buckets p)) : Lodged o p b := by
  induction levels generalizing o with
  | nil => simp at hp
  | cons l levels ih =>
    have hf := evictStep_frame leaf l o
    by_cases hin : p ∈ levels.map (o.P leaf)
    · rw [← Frame.lodged hf]
      exact ih (h.step hf).2
        (fun i hi => hf.numLevels ▸ hlt i (List.mem_cons_of_mem _ hi))
        (fun c hc => hs c (mem_of_mem_eraseKeys hc)) (hf.P ▸ hin) hb
    · have he : p = o.P leaf l := by
        rcases List.mem_cons.mp hp with he | he
        · exact he
        · exact absurd he hin
      subst he
      have hoff := evictPath_off (o := evictStep leaf l o) (hf.P ▸ hin)
      rw [evictPath, List.foldl_cons, ← evictPath, hoff] at hb
      exact evictStep_lodged (hlt l List.mem_cons_self) hs hb

theorem map_range_P (o : Oram) (leaf : ℕ) :
    ((List.range o.numLevels).map (o.P leaf)).toFinset = path o.numLevels leaf := by
  ext p
  simp only [List.mem_toFinset, List.mem_map, List.mem_range, mem_path, P_eq]
  exact ⟨fun ⟨l, hl, h⟩ => ⟨l, hl, h.symm⟩, fun ⟨l, hl, h⟩ => ⟨l, hl, h.symm⟩⟩

theorem openLevels (hw : WellFormed o) (hleaf : leaf < o.numLeaves) :
    OpenLevels o leaf (List.range o.numLevels) ∅ := by
  rw [hw.leaves_eq] at hleaf
  refine ⟨?_, ?_, by simp⟩
  · intro i hi
    rw [P_eq, hw.buckets_eq]
    exact bucketAt_lt hleaf (List.mem_range.mp hi)
  · refine List.Nodup.map_on ?_ List.nodup_range
    intro i hi j hj he
    rw [P_eq, P_eq] at he
    exact level_eq hleaf hleaf (List.mem_range.mp hi) (List.mem_range.mp hj) he

theorem openLevels_reverse (h : OpenLevels o leaf levels ∅) :
    OpenLevels o leaf levels.reverse ∅ := by
  refine ⟨fun i hi => h.bound i (List.mem_reverse.mp hi), ?_, by simp⟩
  rw [List.map_reverse]
  exact List.nodup_reverse.mpr h.nodup

/-- The storage calls of one access: the path is read from the root and written from the leaf. -/
def pathCalls (levels leaf : ℕ) : List StorageCall :=
  (List.range levels).map (fun i => .read (bucketAt levels leaf i)) ++
    (List.range levels).reverse.map fun l => .write (bucketAt levels leaf l)

def opened (leaf : ℕ) (o : Oram) : Oram := readPath leaf (List.range o.numLevels) o

def accessed (op : Operation) (i : ℕ) (leaf : ℕ) (newLeaf : ℤ) (newData : Str) (o : Oram) : Oram :=
  { opened leaf o with stash := stashUpdate op (toInt i) newLeaf newData (opened leaf o).stash }

def handled (op : Operation) (i : ℕ) (leaf : ℕ) (newLeaf : ℤ) (newData : Str) (o : Oram) : Oram :=
  evictPath leaf (List.range o.numLevels).reverse (accessed op i leaf newLeaf newData o)

theorem accessed_frame (op : Operation) (i leaf : ℕ) (newLeaf : ℤ) (newData : Str) (o : Oram) :
    Frame o (accessed op i leaf newLeaf newData o) := by
  have h : Frame o (opened leaf o) := readPath_frame
  exact ⟨h.1, h.2, h.3, h.4, h.5, h.6, h.7, h.8, h.9⟩

theorem accessed_buckets {op : Operation} {i leaf : ℕ} {newLeaf : ℤ} {newData : Str} {o : Oram} :
    (accessed op i leaf newLeaf newData o).storage.buckets = o.storage.buckets :=
  readPath_buckets

theorem handled_frame (op : Operation) (i leaf : ℕ) (newLeaf : ℤ) (newData : Str) (o : Oram) :
    Frame o (handled op i leaf newLeaf newData o) :=
  (accessed_frame op i leaf newLeaf newData o).trans evictPath_frame

theorem answers_of_reliable (hr : Reliable o) (hw : WellFormed o) {u : Oram} (h : Frame o u)
    (hleaf : leaf < o.numLeaves) {l : ℕ} (hl : l < o.numLevels) : Answers u (u.P leaf l) := by
  refine ⟨?_, h.reliable hr _⟩
  rw [h.P, h.capacity, hw.capacity_eq]
  exact (openLevels hw hleaf).bound l (List.mem_range.mpr hl)

theorem accessHandler_run (hr : Reliable o) (hw : WellFormed o) (hleaf : leaf < o.numLeaves)
    (op : Operation) (i : ℕ) (newLeaf : ℤ) (newData : Str) :
    (accessHandler op i leaf newLeaf newData).run o =
      .ok (stashAnswer op (toInt i) (opened leaf o).stash)
        (handled op i leaf newLeaf newData o) := by
  have hread := forM_run (readLevel leaf) (readStep leaf) (G := Frame o)
    (l := List.range o.numLevels) (fun i hi u hu =>
      ⟨readLevel_ok (answers_of_reliable hr hw hu hleaf (List.mem_range.mp hi)),
        hu.trans (readStep_frame leaf i u)⟩) (Frame.refl o)
  have hevict := forM_run (evictLevel leaf) (evictStep leaf) (G := Frame o)
    (l := (List.range o.numLevels).reverse) (fun l hl u hu =>
      ⟨evictLevel_ok (by rw [hu.maxSize, hu.bucketSize, hw.max_eq])
          (answers_of_reliable hr hw hu hleaf (List.mem_range.mp (List.mem_reverse.mp hl))),
        hu.trans (evictStep_frame leaf l u)⟩)
    (accessed_frame op i leaf newLeaf newData o)
  refine (run_bind_ok (run_get o)).trans ((run_bind_ok hread.1).trans ?_)
  refine (run_bind_ok (accessStash_run op i newLeaf newData _)).trans ?_
  exact (run_bind_ok hevict.1).trans (run_pure _ _)

/-- A call that returns left the state of a call no storage call of which throws. -/
theorem accessHandler_ok {op : Operation} {i : ℕ} {newLeaf : ℤ} {newData answer : Str} {u : Oram}
    (hmax : o.maxSize = o.bucketSize)
    (h : (accessHandler op i leaf newLeaf newData).run o = .ok answer u) :
    answer = stashAnswer op (toInt i) (opened leaf o).stash ∧
      u = handled op i leaf newLeaf newData o := by
  obtain ⟨_, _, hget, h⟩ := bind_ok h
  cases hget
  obtain ⟨_, t, hread, h⟩ := bind_ok h
  obtain rfl := forM_ok_foldl (G := fun _ => True) (readLevel leaf) (readStep leaf)
    (fun _ _ _ _ _ h => ⟨readLevel_ok_step h, trivial⟩) trivial hread
  obtain ⟨_, t, hstash, h⟩ := bind_ok h
  rw [accessStash_run] at hstash
  cases hstash
  obtain ⟨_, t, hevict, h⟩ := bind_ok h
  have hstep : ∀ l ∈ (List.range o.numLevels).reverse, ∀ s t, Frame o s →
      (evictLevel leaf l).run s = .ok ⟨⟩ t → t = evictStep leaf l s ∧ Frame o t := by
    intro l _ s t hs ht
    obtain rfl := evictLevel_ok_step (by rw [hs.maxSize, hs.bucketSize, hmax]) ht
    exact ⟨rfl, hs.trans (evictStep_frame leaf l s)⟩
  obtain rfl := forM_ok_foldl (evictLevel leaf) (evictStep leaf) hstep
    (accessed_frame op i leaf newLeaf newData o) hevict
  cases h
  exact ⟨rfl, rfl⟩

/-- Where a call of `access_handler` was when a storage call threw. -/
inductive Interrupted (op : Operation) (i leaf : ℕ) (newLeaf : ℤ) (newData : Str) (o : Oram) :
    Oram → Prop where
  | reading (pre post : List ℕ) (l : ℕ) : List.range o.numLevels = pre ++ l :: post →
      Interrupted op i leaf newLeaf newData o
        ((readPath leaf pre o).logCall (.read (o.P leaf l)))
  | evicting (pre post : List ℕ) (l : ℕ) : (List.range o.numLevels).reverse = pre ++ l :: post →
      Interrupted op i leaf newLeaf newData o
        ((evictStash leaf l (evictPath leaf pre (accessed op i leaf newLeaf newData o))).logCall
          (.write (o.P leaf l)))

theorem accessHandler_error {op : Operation} {i : ℕ} {newLeaf : ℤ} {newData : Str} {u : Oram}
    {e : StorageError} (hmax : o.maxSize = o.bucketSize)
    (h : (accessHandler op i leaf newLeaf newData).run o = .error e u) :
    Interrupted op i leaf newLeaf newData o u := by
  rcases bind_error h with hget | ⟨_, _, hget, h⟩
  · cases hget
  cases hget
  rcases bind_error h with hread | ⟨_, t, hread, h⟩
  · obtain ⟨pre, l, post, t, hl, hpre, hthrow⟩ := forM_error hread
    obtain rfl := forM_ok_foldl (G := fun _ => True) (readLevel leaf) (readStep leaf)
      (fun _ _ _ _ _ h => ⟨readLevel_ok_step h, trivial⟩) trivial hpre
    rw [readLevel_error_state hthrow, ← readPath, readPath_frame.P]
    exact .reading pre post l hl
  obtain rfl := forM_ok_foldl (G := fun _ => True) (readLevel leaf) (readStep leaf)
    (fun _ _ _ _ _ h => ⟨readLevel_ok_step h, trivial⟩) trivial hread
  rcases bind_error h with hstash | ⟨_, t, hstash, h⟩
  · rw [accessStash_run] at hstash
    cases hstash
  rw [accessStash_run] at hstash
  cases hstash
  rcases bind_error h with hevict | ⟨_, t, _, h⟩
  · obtain ⟨pre, l, post, t, hl, hpre, hthrow⟩ := forM_error hevict
    have hstep : ∀ k ∈ pre, ∀ s t, Frame o s →
        (evictLevel leaf k).run s = .ok ⟨⟩ t → t = evictStep leaf k s ∧ Frame o t := by
      intro k _ s t hs ht
      obtain rfl := evictLevel_ok_step (by rw [hs.maxSize, hs.bucketSize, hmax]) ht
      exact ⟨rfl, hs.trans (evictStep_frame leaf k s)⟩
    have hacc := accessed_frame op i leaf newLeaf newData o
    have ht : t = evictPath leaf pre (accessed op i leaf newLeaf newData o) :=
      forM_ok_foldl (evictLevel leaf) (evictStep leaf) hstep hacc hpre
    have hframe : Frame o t := ht ▸ hacc.trans evictPath_frame
    have hu := evictLevel_error_state (by rw [hframe.maxSize, hframe.bucketSize, hmax]) hthrow
    rw [hframe.P, ht] at hu
    rw [hu]
    exact .evicting pre post l hl
  · cases h

end OramAccess
