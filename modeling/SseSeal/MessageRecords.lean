import Mathlib.Algebra.Order.BigOperators.Group.List
import Mathlib.Algebra.Order.Group.Nat
import SseSeal.MessageFormat

/-! The grammar of messages. A class reads exactly the sequences of records: in any order, as
often as they come, and with what the class does not know among them. What was written for a
message is one of them, and reading it merges the message. -/
namespace MessageRecords

open Bytes MessageFormat

variable {α U : Type} {r : Runtime U} {c : MessageClass α} {m m' m'' : Message α U} {a a' : α}
  {s s' rest t : Str} {f : MessageField α} {tag N : ℕ}

def MessageField.parseRecord (r : Runtime U) (a : α) (s : Str) : MessageField α → Option (α × Str)
  | .repeatedBytes _ _ add => (r.readString s).map fun v => (add v.1 a, v.2)
  | .bool n get set => (MessageField.bool n get set).parse r a s
  | .int32 n get set => (MessageField.int32 n get set).parse r a s
  | .bytes n get set => (MessageField.bytes n get set).parse r a s

/-- The bytes of a sequence of records, and what they make of a message. -/
inductive Parses (r : Runtime U) (c : MessageClass α) : Message α U → Str → Message α U → Prop
  | nil (m : Message α U) : Parses r c m [] m
  | field {m m' : Message α U} {a : α} {s s' rest : Str} {f : MessageField α} (hf : f ∈ c.fields)
      (htag : r.readTag s = some (f.tag, s'))
      (hread : MessageField.parseRecord r m.fields s' f = some (a, rest))
      (hrest : Parses r c { m with fields := a } rest m') : Parses r c m s m'
  | unknown {m m' : Message α U} {s s' rest : Str} {tag : ℕ} {u : U}
      (hunknown : ∀ f ∈ c.fields, tag ≠ f.tag) (htag : r.readTag s = some (tag, s'))
      (hend : tag ≠ 0 ∧ tag % 8 ≠ 4) (hread : r.unknownFieldParse tag s' = some (u, rest))
      (hrest : Parses r c { m with unknownFields := m.unknownFields ++ [u] } rest m') :
      Parses r c m s m'

def Runtime.ReadsTags (r : Runtime U) (N : ℕ) : Prop := ∀ (b : UInt8) (s : Str),
  (b :: s).length < N → b.toNat < 128 → r.readTag (b :: s) = some (b.toNat, s)

def Extends {β : Type} (N : ℕ) (read : Str → Option (β × Str)) : Prop := ∀ s b rest t,
  (s ++ t).length < N → read s = some (b, rest) → read (s ++ t) = some (b, rest ++ t)

theorem tag_lt (hf : f ∈ c.fields) : 0 < f.tag ∧ f.tag < 128 := by
  have hnumber := c.number_lt f hf
  cases f <;> simp only [MessageField.number, MessageField.tag] at hnumber ⊢ <;> omega

theorem tag_div (f : MessageField α) : f.tag / 8 = f.number := by
  cases f <;> simp only [MessageField.number, MessageField.tag] <;> omega

theorem find_field (hf : f ∈ c.fields) :
    (c.fields.find? fun g => g.number = f.tag / 8) = some f := by
  rw [tag_div]
  have hdistinct := c.distinct
  generalize c.fields = fields at hf hdistinct
  induction fields with
  | nil => cases hf
  | cons g fields ih =>
    obtain ⟨hg, hdistinct⟩ := List.nodup_cons.mp hdistinct
    rcases List.mem_cons.mp hf with rfl | hf
    · simp
    · have hne : g.number ≠ f.number := fun heq => hg (heq ▸ List.mem_map_of_mem hf)
      rw [List.find?_cons_of_neg (by simpa using hne)]
      exact ih hf hdistinct

theorem parseStep_field (hf : f ∈ c.fields) (htag : r.readTag s = some (f.tag, s')) :
    parseStep r c m s =
      (f.parse r m.fields s').map fun v => .next { m with fields := v.1 } v.2 := by
  have hmod : f.tag % 256 = f.tag := Nat.mod_eq_of_lt (by have := tag_lt hf; omega)
  simp only [parseStep, htag, find_field hf, hmod, if_true]

theorem parseStep_unknown (hunknown : ∀ f ∈ c.fields, tag ≠ f.tag)
    (htag : r.readTag s = some (tag, s')) : parseStep r c m s = handleUnusual r m tag s' := by
  rw [parseStep, htag]
  simp only
  split
  · rfl
  rename_i f hfind
  have hf := List.mem_of_find?_eq_some hfind
  have hnumber : f.number = tag / 8 := by simpa using List.find?_some hfind
  have hlt := c.number_lt f hf
  have hmod : tag % 256 = tag := Nat.mod_eq_of_lt (by omega)
  rw [hmod, if_neg (hunknown f hf)]

theorem internalParse_nil : internalParse r c m [] = some (m, none) := by
  rw [internalParse, if_pos rfl]

theorem internalParse_next (h : parseStep r c m s = some (.next m' rest)) :
    internalParse r c m s = internalParse r c m' rest := by
  have hne : s ≠ [] := by
    rintro rfl
    exact absurd (parseStep_lt h) (Nat.not_lt_zero _)
  rw [internalParse, if_neg hne, h]

theorem internalParse_congr (hs : s ≠ []) (ht : t ≠ [])
    (h : parseStep r c m s = parseStep r c m' t) :
    internalParse r c m s = internalParse r c m' t := by
  rw [internalParse, if_neg hs, internalParse, if_neg ht, h]

/-- The loop over a repeated field reads what the outer loop would read. -/
theorem internalParse_field (htags : Runtime.ReadsTags r N) (hs : s.length < N)
    (hf : f ∈ c.fields) (htag : r.readTag s = some (f.tag, s'))
    (hread : MessageField.parseRecord r m.fields s' f = some (a, rest)) :
    internalParse r c m s = internalParse r c { m with fields := a } rest := by
  have hstep := parseStep_field (m := m) hf htag
  cases f with
  | repeatedBytes n get add =>
    obtain ⟨⟨element, rest⟩, hstring, heq⟩ := Option.map_eq_some_iff.mp hread
    cases heq
    have hlt := r.readTag_lt htag
    have hlt' := r.readString_lt hstring
    rw [MessageField.parse, repeatedLoop, hstring] at hstep
    cases rest with
    | nil => exact internalParse_next hstep
    | cons b rest =>
      by_cases hb : b.toNat = (MessageField.repeatedBytes n get add).tag
      · -- The inner loop goes on where the outer loop would come back to this field.
        simp only [if_pos hb] at hstep
        have htag' : r.readTag (b :: rest) =
            some ((MessageField.repeatedBytes n get add).tag, rest) := by
          rw [← hb]
          exact htags b rest (by omega) (hb ▸ (tag_lt hf).2)
        refine internalParse_congr ?_ (List.cons_ne_nil b rest) ?_
        · rintro rfl
          exact absurd hlt (Nat.not_lt_zero _)
        · rw [hstep, parseStep_field hf htag']
          rfl
      · simp only [if_neg hb] at hstep
        exact internalParse_next hstep
  | _ => exact internalParse_next (hstep.trans (congrArg (Option.map _) hread))

theorem internalParse_unknown {u : U} (hunknown : ∀ f ∈ c.fields, tag ≠ f.tag)
    (htag : r.readTag s = some (tag, s')) (hend : tag ≠ 0 ∧ tag % 8 ≠ 4)
    (hread : r.unknownFieldParse tag s' = some (u, rest)) :
    internalParse r c m s =
      internalParse r c { m with unknownFields := m.unknownFields ++ [u] } rest := by
  apply internalParse_next
  rw [parseStep_unknown hunknown htag, handleUnusual, if_neg (not_or.mpr hend), hread]
  rfl

theorem MessageField.parseRecord_le (h : MessageField.parseRecord r a s f = some (a', rest)) :
    rest.length ≤ s.length := by
  cases f with
  | bool n get set => exact MessageField.parse_le (f := .bool n get set) h
  | int32 n get set => exact MessageField.parse_le (f := .int32 n get set) h
  | bytes n get set => exact MessageField.parse_le (f := .bytes n get set) h
  | repeatedBytes n get add =>
    obtain ⟨v, hread, heq⟩ := Option.map_eq_some_iff.mp h
    cases heq
    exact (r.readString_lt hread).le

theorem MessageField.parseRecord_of_parse (h : f.parse r a s = some (a', rest)) :
    ∃ b rest', MessageField.parseRecord r a s f = some (b, rest') := by
  cases f with
  | bool n get set => exact ⟨a', rest, h⟩
  | int32 n get set => exact ⟨a', rest, h⟩
  | bytes n get set => exact ⟨a', rest, h⟩
  | repeatedBytes n get add =>
    cases hread : r.readString s with
    | none =>
      rw [MessageField.parse, repeatedLoop, hread] at h
      cases h
    | some v => exact ⟨add v.1 a, v.2, by rw [MessageField.parseRecord, hread]; rfl⟩

theorem Parses.internalParse (htags : Runtime.ReadsTags r N) (h : Parses r c m s m')
    (hs : s.length < N) : internalParse r c m s = some (m', none) := by
  induction h with
  | nil => exact internalParse_nil
  | field hf htag hread _ ih =>
    have hlt := r.readTag_lt htag
    have hle := MessageField.parseRecord_le hread
    rw [internalParse_field htags hs hf htag hread]
    exact ih (by omega)
  | unknown hunknown htag hend hread _ ih =>
    have hlt := r.readTag_lt htag
    have hle := r.unknownFieldParse_le hread
    rw [internalParse_unknown hunknown htag hend hread]
    exact ih (by omega)

theorem parses_of_internalParse (htags : Runtime.ReadsTags r N) (hs : s.length < N)
    (h : MessageFormat.internalParse r c m s = some (m', none)) : Parses r c m s m' := by
  induction hn : s.length using Nat.strong_induction_on generalizing m s with
  | _ n ih =>
  subst hn
  by_cases hnil : s = []
  · subst hnil
    cases internalParse_nil.symm.trans h
    exact .nil _
  have hsome : ∃ m₁ rest, parseStep r c m s = some (.next m₁ rest) := by
    rw [MessageFormat.internalParse, if_neg hnil] at h
    split at h
    · cases h
    · cases h
    · rename_i m₁ rest hstep
      exact ⟨m₁, rest, hstep⟩
  obtain ⟨m₁, rest, hstep⟩ := hsome
  cases htag : r.readTag s with
  | none =>
    rw [parseStep, htag] at hstep
    cases hstep
  | some v =>
    obtain ⟨tag, s'⟩ := v
    have hlt := r.readTag_lt htag
    by_cases hfield : ∃ f ∈ c.fields, tag = f.tag
    · obtain ⟨f, hf, rfl⟩ := hfield
      rw [parseStep_field hf htag] at hstep
      obtain ⟨v, hparse, _⟩ := Option.map_eq_some_iff.mp hstep
      obtain ⟨a, rest', hread⟩ := MessageField.parseRecord_of_parse hparse
      have hle := MessageField.parseRecord_le hread
      rw [internalParse_field htags hs hf htag hread] at h
      exact .field hf htag hread (ih rest'.length (by omega) (by omega) h rfl)
    · have hunknown : ∀ f ∈ c.fields, tag ≠ f.tag := fun f hf heq => hfield ⟨f, hf, heq⟩
      rw [parseStep_unknown hunknown htag, handleUnusual] at hstep
      split at hstep
      · cases hstep
      rename_i hend
      obtain ⟨⟨u, rest'⟩, hread, _⟩ := Option.map_eq_some_iff.mp hstep
      have hle := r.unknownFieldParse_le hread
      rw [internalParse_unknown hunknown htag (not_or.mp hend) hread] at h
      exact .unknown hunknown htag (not_or.mp hend) hread
        (ih rest'.length (by omega) (by omega) h rfl)

/-- A class reads the sequences of records and nothing else. -/
theorem parseFromString_iff (htags : Runtime.ReadsTags r N) (hs : s.length < N) :
    parseFromString r c s = some m ↔ Parses r c c.cleared s m := by
  constructor
  · intro h
    rw [parseFromString] at h
    split at h
    · rename_i m' hparse
      cases h
      exact parses_of_internalParse htags hs hparse
    · cases h
  · intro h
    rw [parseFromString, h.internalParse htags hs]

/-- The routines of the runtime fit together on inputs shorter than `N`: what is written for a
record is the tag and a body that is read back, and its size is foreseen. -/
structure Runtime.Lawful (r : Runtime U) (N : ℕ) : Prop where
  readsTags : Runtime.ReadsTags r N
  readTag : Extends N r.readTag
  readVarint64 : Extends N r.readVarint64
  readString : Extends N r.readString
  unknownFieldParse : ∀ tag, Extends N (r.unknownFieldParse tag)
  writeBool : ∀ n, n < 16 → ∃ body v, r.writeBool n true = UInt8.ofNat (8 * n) :: body ∧
    body.length = 1 ∧ r.readVarint64 body = some (v, []) ∧ v ≠ 0
  writeInt32 : ∀ n i, n < 16 → -2 ^ 31 ≤ i → i < 2 ^ 31 → ∃ body,
    r.writeInt32 n i = UInt8.ofNat (8 * n) :: body ∧ r.int32SizePlusOne i = 1 + body.length ∧
    r.readVarint64 body = some ((i % 2 ^ 64).toNat, [])
  writeBytes : ∀ n s, n < 16 → (r.writeBytes n s).length < N → ∃ body,
    r.writeBytes n s = UInt8.ofNat (8 * n + 2) :: body ∧ r.bytesSize s = body.length ∧
    r.readString body = some (s, [])
  writeUnknown : ∀ u, (r.writeUnknown u).length < N → ∃ body,
    r.readTag (r.writeUnknown u) = some (r.unknownTag u, body) ∧
    r.unknownFieldParse (r.unknownTag u) body = some (u, []) ∧
    r.unknownSize u = (r.writeUnknown u).length
  unknownTag : ∀ u, r.unknownTag u ≠ 0 ∧ r.unknownTag u % 8 ≠ 4
  unknownTag_parse : ∀ tag s u rest, r.unknownFieldParse tag s = some (u, rest) →
    r.unknownTag u = tag

def MessageField.Valid (a : α) : MessageField α → Prop
  | .int32 _ get _ => -2 ^ 31 ≤ get a ∧ get a < 2 ^ 31
  | _ => True

/-- The integers have 32 bits, and no unknown field is one that the class knows. -/
structure Message.Valid (r : Runtime U) (c : MessageClass α) (m : Message α U) : Prop where
  fields : ∀ f ∈ c.fields, MessageField.Valid m.fields f
  unknown : ∀ u ∈ m.unknownFields, ∀ f ∈ c.fields, r.unknownTag u ≠ f.tag

theorem MessageField.parseRecord_append (hr : Runtime.Lawful r N) (hN : (s ++ t).length < N)
    (h : MessageField.parseRecord r a s f = some (a', rest)) :
    MessageField.parseRecord r a (s ++ t) f = some (a', rest ++ t) := by
  cases f with
  | bool n get set =>
    obtain ⟨v, hread, heq⟩ := Option.map_eq_some_iff.mp h
    cases heq
    simp only [parseRecord, MessageFormat.MessageField.parse, hr.readVarint64 s v.1 v.2 t hN hread,
      Option.map_some]
  | int32 n get set =>
    obtain ⟨v, hread, heq⟩ := Option.map_eq_some_iff.mp h
    cases heq
    simp only [parseRecord, MessageFormat.MessageField.parse, hr.readVarint64 s v.1 v.2 t hN hread,
      Option.map_some]
  | bytes n get set =>
    obtain ⟨v, hread, heq⟩ := Option.map_eq_some_iff.mp h
    cases heq
    simp only [parseRecord, MessageFormat.MessageField.parse, hr.readString s v.1 v.2 t hN hread,
      Option.map_some]
  | repeatedBytes n get add =>
    obtain ⟨v, hread, heq⟩ := Option.map_eq_some_iff.mp h
    cases heq
    simp only [parseRecord, hr.readString s v.1 v.2 t hN hread, Option.map_some]

theorem Parses.append (hr : Runtime.Lawful r N) (h : Parses r c m s m')
    (h' : Parses r c m' t m'') (hN : (s ++ t).length < N) : Parses r c m (s ++ t) m'' := by
  induction h with
  | nil => exact h'
  | field hf htag hread _ ih =>
    have hlt := r.readTag_lt htag
    have hle := MessageField.parseRecord_le hread
    rw [List.length_append] at hN
    refine .field hf (hr.readTag _ _ _ t ?_ htag)
      (MessageField.parseRecord_append hr (t := t) ?_ hread) (ih h' ?_)
    all_goals
      rw [List.length_append]
      omega
  | unknown hunknown htag hend hread _ ih =>
    have hlt := r.readTag_lt htag
    have hle := r.unknownFieldParse_le hread
    rw [List.length_append] at hN
    refine .unknown hunknown (hr.readTag _ _ _ t ?_ htag) hend
      (hr.unknownFieldParse _ _ _ _ t ?_ hread) (ih h' ?_)
    all_goals
      rw [List.length_append]
      omega

theorem parses_record {b : UInt8} {body : Str} (hr : Runtime.Lawful r N) (hf : f ∈ c.fields)
    (hb : b = UInt8.ofNat f.tag) (hN : (b :: body).length < N)
    (hread : MessageField.parseRecord r m.fields body f = some (a, [])) :
    Parses r c m (b :: body) { m with fields := a } := by
  have hlt := (tag_lt hf).2
  have hnat : b.toNat = f.tag := by
    rw [hb, UInt8.toNat_ofNat']
    omega
  refine .field hf ?_ hread (.nil _)
  rw [← hnat]
  exact hr.readsTags b body hN (hnat ▸ hlt)

theorem bmod_emod {i : ℤ} (hlo : -2 ^ 31 ≤ i) (hhi : i < 2 ^ 31) :
    (((i % 2 ^ 64).toNat : ℕ) : ℤ).bmod (2 ^ 32) = i := by
  rw [Int.bmod_def]
  omega

theorem parses_field (hr : Runtime.Lawful r N) (hf : f ∈ c.fields) (ha : MessageField.Valid a f)
    (hN : (f.serialize r a).length < N) :
    Parses r c m (f.serialize r a) { m with fields := f.merge a m.fields } := by
  have hnumber := (c.number_lt f hf).2
  cases f with
  | bool n get set =>
    by_cases hget : get a
    · obtain ⟨body, v, hwrite, _, hread, hv⟩ := hr.writeBool n hnumber
      rw [MessageFormat.MessageField.serialize, if_pos hget, hwrite] at hN ⊢
      refine parses_record hr hf rfl hN ?_
      simp [MessageField.parseRecord, MessageFormat.MessageField.parse, MessageField.merge, hread,
        hget, hv]
    · rw [MessageFormat.MessageField.serialize, if_neg hget, MessageField.merge, if_neg hget]
      exact .nil m
  | int32 n get set =>
    by_cases hget : get a = 0
    · rw [MessageFormat.MessageField.serialize, if_pos hget, MessageField.merge, if_pos hget]
      exact .nil m
    · obtain ⟨body, hwrite, _, hread⟩ := hr.writeInt32 n (get a) hnumber ha.1 ha.2
      rw [MessageFormat.MessageField.serialize, if_neg hget, hwrite] at hN ⊢
      refine parses_record hr hf rfl hN ?_
      simp only [MessageField.parseRecord, MessageFormat.MessageField.parse, MessageField.merge,
        hread, if_neg hget, Option.map_some, bmod_emod ha.1 ha.2]
  | bytes n get set =>
    by_cases hget : get a = []
    · rw [MessageFormat.MessageField.serialize, if_pos hget, MessageField.merge, if_pos hget]
      exact .nil m
    · rw [MessageFormat.MessageField.serialize, if_neg hget] at hN ⊢
      obtain ⟨body, hwrite, _, hread⟩ := hr.writeBytes n (get a) hnumber hN
      rw [hwrite] at hN ⊢
      refine parses_record hr hf rfl hN ?_
      simp only [MessageField.parseRecord, MessageFormat.MessageField.parse, MessageField.merge,
        hread, if_neg hget, Option.map_some]
  | repeatedBytes n get add =>
    rw [MessageFormat.MessageField.serialize] at hN ⊢
    rw [MessageField.merge]
    generalize get a = elements at hN
    induction elements generalizing m with
    | nil => exact .nil m
    | cons element elements ih =>
      rw [List.flatMap_cons] at hN ⊢
      rw [List.length_append] at hN
      have hone : Parses r c m (r.writeBytes n element)
          { m with fields := add element m.fields } := by
        have hlt : (r.writeBytes n element).length < N := by omega
        obtain ⟨body, hwrite, _, hread⟩ := hr.writeBytes n element hnumber hlt
        rw [hwrite] at hlt ⊢
        refine parses_record hr hf rfl hlt ?_
        rw [MessageField.parseRecord, hread]
        rfl
      apply hone.append hr (ih (by omega))
      rw [List.length_append]
      omega

theorem parses_fields (hr : Runtime.Lawful r N) (ha : ∀ f ∈ c.fields, MessageField.Valid a f)
    {l : List (MessageField α)} (hl : l ⊆ c.fields)
    (hN : (l.flatMap (MessageField.serialize r a)).length < N) :
    Parses r c m (l.flatMap (MessageField.serialize r a))
      { m with fields := l.foldl (fun target f => f.merge a target) m.fields } := by
  induction l generalizing m with
  | nil => exact .nil m
  | cons f l ih =>
    obtain ⟨hf, hl⟩ := List.cons_subset.mp hl
    rw [List.flatMap_cons] at hN ⊢
    rw [List.length_append] at hN
    have hone := parses_field (m := m) hr hf (ha f hf) (by omega)
    apply hone.append hr (ih hl (by omega))
    rw [List.length_append]
    omega

theorem parses_unknowns (hr : Runtime.Lawful r N) {l : List U}
    (hl : ∀ u ∈ l, ∀ f ∈ c.fields, r.unknownTag u ≠ f.tag)
    (hN : (l.flatMap r.writeUnknown).length < N) :
    Parses r c m (l.flatMap r.writeUnknown)
      { m with unknownFields := m.unknownFields ++ l } := by
  induction l generalizing m with
  | nil =>
    rw [List.append_nil]
    exact .nil m
  | cons u l ih =>
    rw [List.flatMap_cons] at hN ⊢
    rw [List.length_append] at hN
    obtain ⟨body, htag, hread, _⟩ := hr.writeUnknown u (by omega)
    have hone : Parses r c m (r.writeUnknown u)
        { m with unknownFields := m.unknownFields ++ [u] } :=
      .unknown (hl u List.mem_cons_self) htag (hr.unknownTag u) hread (.nil _)
    have hrest := ih (m := { m with unknownFields := m.unknownFields ++ [u] })
      (fun v hv => hl v (List.mem_cons_of_mem u hv)) (by omega)
    rw [List.append_assoc, List.singleton_append] at hrest
    apply hone.append hr hrest
    rw [List.length_append]
    omega

theorem parses_serialize {b : Message α U} (hr : Runtime.Lawful r N) (hb : Message.Valid r c b)
    (hN : (serialize r c b).length < N) : Parses r c m (serialize r c b) (mergeFrom c m b) := by
  have hlen := hN
  rw [serialize] at hN ⊢
  rw [serialize, List.length_append] at hlen
  have hfields := parses_fields (m := m) hr hb.fields (List.Subset.refl _) (by omega)
  exact hfields.append hr (parses_unknowns hr hb.unknown (by omega)) hN

theorem parseFromString_append {b : Message α U} (hr : Runtime.Lawful r N)
    (hs : parseFromString r c s = some m) (hb : Message.Valid r c b)
    (hN : (s ++ serialize r c b).length < N) :
    parseFromString r c (s ++ serialize r c b) = some (mergeFrom c m b) := by
  have hlen := hN
  rw [List.length_append] at hlen
  apply (parseFromString_iff hr.readsTags hN).mpr
  have hfirst := (parseFromString_iff hr.readsTags (by omega)).mp hs
  exact hfirst.append hr (parses_serialize hr hb (by omega)) hN

theorem copyFrom_eq : copyFrom c m = m := by
  rw [copyFrom, mergeFrom, MessageClass.cleared, c.copy]
  rfl

theorem parseFromString_serialize (hr : Runtime.Lawful r N) (hm : Message.Valid r c m)
    (hN : (serialize r c m).length < N) : parseFromString r c (serialize r c m) = some m := by
  have hnil : parseFromString r c [] = some c.cleared := by
    rw [parseFromString, internalParse_nil]
  have happend := parseFromString_append hr hnil hm hN
  rwa [List.nil_append, ← copyFrom, copyFrom_eq] at happend

def MessageField.Keeps (P : α → Prop) : MessageField α → Prop
  | .bool _ _ set => ∀ a v, P a → P (set v a)
  | .int32 _ _ set => ∀ a v, -2 ^ 31 ≤ v → v < 2 ^ 31 → P a → P (set v a)
  | .bytes _ _ set => ∀ a v, P a → P (set v a)
  | .repeatedBytes _ _ add => ∀ a v, P a → P (add v a)

structure MessageClass.Keeps (c : MessageClass α) : Prop where
  default : ∀ f ∈ c.fields, MessageField.Valid c.default f
  sets : ∀ f ∈ c.fields, ∀ g ∈ c.fields, MessageField.Keeps (fun a => MessageField.Valid a f) g

theorem bmod_range (v : ℕ) : -2 ^ 31 ≤ (v : ℤ).bmod (2 ^ 32) ∧ (v : ℤ).bmod (2 ^ 32) < 2 ^ 31 := by
  rw [Int.bmod_def]
  omega

theorem MessageField.Keeps.parseRecord {P : α → Prop} (hf : MessageField.Keeps P f) (ha : P a)
    (h : MessageField.parseRecord r a s f = some (a', rest)) : P a' := by
  cases f with
  | int32 n get set =>
    obtain ⟨v, _, heq⟩ := Option.map_eq_some_iff.mp h
    cases heq
    obtain ⟨hlo, hhi⟩ := bmod_range v.1
    exact hf a _ hlo hhi ha
  | _ =>
    obtain ⟨v, _, heq⟩ := Option.map_eq_some_iff.mp h
    cases heq
    exact hf a _ ha

theorem Parses.valid (hr : Runtime.Lawful r N) (hc : MessageClass.Keeps c)
    (h : Parses r c m s m') (hm : Message.Valid r c m) : Message.Valid r c m' := by
  induction h with
  | nil => exact hm
  | field hf _ hread _ ih =>
    refine ih ⟨?_, hm.unknown⟩
    intro g hg
    exact (hc.sets g hg _ hf).parseRecord (hm.fields g hg) hread
  | unknown hunknown _ _ hread _ ih =>
    refine ih ⟨hm.fields, ?_⟩
    intro u hu
    rcases List.mem_append.mp hu with hu | hu
    · exact hm.unknown u hu
    · rw [List.mem_singleton.mp hu, hr.unknownTag_parse _ _ _ _ hread]
      exact hunknown

theorem parseFromString_valid (hr : Runtime.Lawful r N) (hc : MessageClass.Keeps c)
    (hs : s.length < N) (h : parseFromString r c s = some m) : Message.Valid r c m := by
  refine ((parseFromString_iff hr.readsTags hs).mp h).valid hr hc ⟨hc.default, ?_⟩
  intro u hu
  cases hu

theorem MessageField.size_eq (hr : Runtime.Lawful r N) (hf : f ∈ c.fields)
    (ha : MessageField.Valid a f) (hN : (f.serialize r a).length < N) :
    f.size r a = (f.serialize r a).length := by
  have hnumber := (c.number_lt f hf).2
  cases f with
  | bool n get set =>
    rw [MessageFormat.MessageField.size, MessageFormat.MessageField.serialize]
    by_cases hget : get a
    · obtain ⟨body, v, hwrite, hlen, _⟩ := hr.writeBool n hnumber
      rw [if_pos hget, if_pos hget, hwrite, List.length_cons, hlen]
    · rw [if_neg hget, if_neg hget, List.length_nil]
  | int32 n get set =>
    rw [MessageFormat.MessageField.size, MessageFormat.MessageField.serialize]
    by_cases hget : get a = 0
    · rw [if_pos hget, if_pos hget, List.length_nil]
    · obtain ⟨body, hwrite, hsize, _⟩ := hr.writeInt32 n (get a) hnumber ha.1 ha.2
      rw [if_neg hget, if_neg hget, hwrite, hsize, List.length_cons, Nat.add_comm]
  | bytes n get set =>
    rw [MessageFormat.MessageField.serialize] at hN
    rw [MessageFormat.MessageField.size, MessageFormat.MessageField.serialize]
    by_cases hget : get a = []
    · rw [if_pos hget, if_pos hget, List.length_nil]
    · rw [if_neg hget] at hN
      obtain ⟨body, hwrite, hsize, _⟩ := hr.writeBytes n (get a) hnumber hN
      rw [if_neg hget, if_neg hget, hwrite, hsize, List.length_cons, Nat.add_comm]
  | repeatedBytes n get add =>
    rw [MessageFormat.MessageField.serialize] at hN
    rw [MessageFormat.MessageField.size, MessageFormat.MessageField.serialize]
    generalize get a = elements at hN
    induction elements with
    | nil => rfl
    | cons element elements ih =>
      rw [List.flatMap_cons, List.length_append] at hN
      obtain ⟨body, hwrite, hsize, _⟩ := hr.writeBytes n element hnumber (by omega)
      have hrest := ih (by omega)
      rw [List.flatMap_cons, List.length_append, hwrite, List.length_cons, List.length_cons,
        List.map_cons, List.sum_cons, hsize]
      omega

theorem byteSizeLong_eq (hr : Runtime.Lawful r N) (hm : Message.Valid r c m)
    (hN : (serialize r c m).length < N) : byteSizeLong r c m = (serialize r c m).length := by
  rw [serialize, List.length_append] at hN
  rw [byteSizeLong, serialize, List.length_append, List.length_flatMap, List.length_flatMap]
  rw [List.length_flatMap, List.length_flatMap] at hN
  have hfields : c.fields.map (MessageFormat.MessageField.size r m.fields) =
      c.fields.map fun f => (f.serialize r m.fields).length := by
    apply List.map_congr_left
    intro f hf
    have hle := List.le_sum_of_mem
      (List.mem_map_of_mem (f := fun f => (MessageField.serialize r m.fields f).length) hf)
    exact MessageField.size_eq hr hf (hm.fields f hf) (by omega)
  have hunknown : m.unknownFields.map r.unknownSize =
      m.unknownFields.map fun u => (r.writeUnknown u).length := by
    apply List.map_congr_left
    intro u hu
    have hle := List.le_sum_of_mem
      (List.mem_map_of_mem (f := fun u => (r.writeUnknown u).length) hu)
    obtain ⟨_, _, _, hsize⟩ := hr.writeUnknown u (by omega)
    exact hsize
  rw [hfields, hunknown]

end MessageRecords
