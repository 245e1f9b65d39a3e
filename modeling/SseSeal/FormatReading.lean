import SseSeal.BinaryArchive

/-! What a format reads. The front of an input is read as a value exactly if it is one of the
byte strings that stand for the value, of which the one written for it may be the only one. -/
namespace FormatReading

open BinaryArchive

variable {α β : Type} {f : Format α} {g : Format β} {N w : ℕ} {L L' : α → List UInt8 → Prop}
  {M : β → List UInt8 → Prop} {s : List UInt8} {a : α}

/-- In an input of less than `N` bytes, the byte strings that `L` relates to a value are those
that are read as it. -/
structure Describes (f : Format α) (N : ℕ) (L : α → List UInt8 → Prop) : Prop where
  get_iff : ∀ s a rest, s.length < N →
    (f.get s = some (a, rest) ↔ ∃ front, L a front ∧ s = front ++ rest)
  nonempty : ∀ a front, L a front → front ≠ []

abbrev Exact (f : Format α) (N : ℕ) : Prop :=
  Describes f N fun a front => f.Valid a ∧ front = f.put a

theorem Describes.congr (h : Describes f N L) (hL : ∀ a front, L a front ↔ L' a front) :
    Describes f N L' := by
  obtain rfl : L = L' := by
    funext a front
    exact propext (hL a front)
  exact h

theorem exact_of_get (h : ∀ s a rest, s.length < N → f.get s = some (a, rest) →
      f.Valid a ∧ s = f.put a ++ rest)
    (hne : ∀ a, f.Valid a → f.put a ≠ []) : Exact f N := by
  constructor
  · intro s a rest hs
    constructor
    · intro hget
      obtain ⟨ha, hfront⟩ := h s a rest hs hget
      exact ⟨f.put a, ⟨ha, rfl⟩, hfront⟩
    · rintro ⟨_, ⟨ha, rfl⟩, rfl⟩
      exact f.get_put a rest ha
  · rintro a _ ⟨ha, rfl⟩
    exact hne a ha

theorem Describes.get_append (h : Describes f N L) {rest tail : List UInt8}
    (hN : (s ++ tail).length < N) (hget : f.get s = some (a, rest)) :
    f.get (s ++ tail) = some (a, rest ++ tail) := by
  have hs : s.length < N := by
    rw [List.length_append] at hN
    omega
  obtain ⟨front, hfront, rfl⟩ := (h.get_iff s a rest hs).mp hget
  apply (h.get_iff _ _ _ hN).mpr
  exact ⟨front, hfront, List.append_assoc _ _ _⟩

theorem Describes.get_cut (h : Describes f N L) (ha : f.Valid a) (hN : (f.put a).length < N)
    (hs : s <+: f.put a) (hne : s ≠ f.put a) : f.get s = none := by
  obtain ⟨tail, htail⟩ := hs
  cases hget : f.get s with
  | none => rfl
  | some r =>
    obtain ⟨b, rest⟩ := r
    have hwhole := h.get_append (htail ▸ hN) hget
    have hput := f.get_put a [] ha
    rw [List.append_nil, ← htail, hwhole, Option.some.injEq, Prod.mk.injEq] at hput
    have htailnil : tail = [] := (List.append_eq_nil_iff.mp hput.2).2
    rw [htailnil, List.append_nil] at htail
    exact absurd htail hne

theorem getNat_ok {n : ℕ} {rest : List UInt8} (h : getNat w s = some (n, rest)) :
    n < 256 ^ w ∧ s = putNat w n ++ rest := by
  induction w generalizing s n with
  | zero =>
    cases h
    exact ⟨by simp, rfl⟩
  | succ w ih =>
    cases s with
    | nil => cases h
    | cons b s =>
      rw [getNat, Option.map_eq_some_iff] at h
      obtain ⟨⟨m, r⟩, hget, heq⟩ := h
      obtain ⟨rfl, rfl⟩ := Prod.mk.inj heq
      obtain ⟨hm, rfl⟩ := ih hget
      have hb : b.toNat < 256 := b.toNat_lt
      have hhigh : (b.toNat + 256 * m) / 256 = m := by omega
      have hlow : UInt8.ofNat (b.toNat + 256 * m) = b := by
        apply UInt8.toNat_inj.mp
        rw [UInt8.toNat_ofNat']
        omega
      refine ⟨?_, ?_⟩
      · rw [Nat.pow_succ']
        omega
      · rw [putNat, hhigh, hlow, List.cons_append]

theorem putNat_ne_nil {n : ℕ} (hw : 0 < w) : putNat w n ≠ [] := by
  intro h
  have hlen := putNat_length w n
  rw [h, List.length_nil] at hlen
  omega

theorem exact_unsigned (hw : 0 < w) (N : ℕ) : Exact (unsigned w) N :=
  exact_of_get (fun _ _ _ _ hget => getNat_ok hget) fun _ _ => putNat_ne_nil hw

theorem exact_int32 (N : ℕ) : Exact int32 N := by
  apply exact_of_get
  · intro s i rest _ hget
    obtain ⟨⟨n, r⟩, hnat, heq⟩ := Option.map_eq_some_iff.mp hget
    obtain ⟨hn, rfl⟩ := getNat_ok hnat
    obtain ⟨rfl, rfl⟩ := Prod.mk.inj heq
    have hvalid : int32.Valid (if n < 2 ^ 31 then (n : ℤ) else n - 2 ^ 32) := by
      change -2 ^ 31 ≤ (if n < 2 ^ 31 then (n : ℤ) else n - 2 ^ 32) ∧
        (if n < 2 ^ 31 then (n : ℤ) else n - 2 ^ 32) < 2 ^ 31
      split <;> omega
    refine ⟨hvalid, ?_⟩
    have hmod : ((if n < 2 ^ 31 then (n : ℤ) else n - 2 ^ 32) % 2 ^ 32).toNat = n := by
      split <;> omega
    change _ = putNat 4 _ ++ _
    rw [hmod]
  · exact fun _ _ => putNat_ne_nil (by decide)

theorem exact_byte (N : ℕ) : Exact byte N := by
  apply exact_of_get
  · intro s b rest _ hget
    cases s with
    | nil => cases hget
    | cons c s =>
      cases hget
      exact ⟨trivial, rfl⟩
  · exact fun b _ => List.cons_ne_nil b []

theorem Describes.pair (hf : Describes f N L) (hg : Describes g N M) :
    Describes (f.pair g) N fun p front => ∃ u v, front = u ++ v ∧ L p.1 u ∧ M p.2 v := by
  constructor
  · rintro s ⟨a, b⟩ rest hs
    constructor
    · intro hget
      obtain ⟨⟨a', s'⟩, hfirst, hget⟩ := Option.bind_eq_some_iff.mp hget
      obtain ⟨⟨b', r⟩, hsecond, heq⟩ := Option.map_eq_some_iff.mp hget
      cases heq
      obtain ⟨u, hu, rfl⟩ := (hf.get_iff _ _ _ hs).mp hfirst
      have hs' : s'.length < N := by
        rw [List.length_append] at hs
        omega
      obtain ⟨v, hv, rfl⟩ := (hg.get_iff _ _ _ hs').mp hsecond
      exact ⟨u ++ v, ⟨u, v, rfl, hu, hv⟩, (List.append_assoc _ _ _).symm⟩
    · rintro ⟨_, ⟨u, v, rfl, hu, hv⟩, rfl⟩
      rw [List.append_assoc] at hs ⊢
      have hs' : (v ++ rest).length < N := by
        rw [List.length_append] at hs
        omega
      have hfirst := (hf.get_iff _ _ _ hs).mpr ⟨u, hu, rfl⟩
      have hsecond := (hg.get_iff _ _ _ hs').mpr ⟨v, hv, rfl⟩
      simp only [Format.pair, hfirst, Option.bind_some, hsecond, Option.map_some]
  · rintro ⟨a, b⟩ _ ⟨u, v, rfl, hu, _⟩ hnil
    exact hf.nonempty a u hu (List.append_eq_nil_iff.mp hnil).1

theorem Exact.pair (hf : Exact f N) (hg : Exact g N) : Exact (f.pair g) N := by
  apply (Describes.pair hf hg).congr
  rintro ⟨a, b⟩ front
  constructor
  · rintro ⟨_, _, rfl, ⟨ha, rfl⟩, hb, rfl⟩
    exact ⟨⟨ha, hb⟩, rfl⟩
  · rintro ⟨⟨ha, hb⟩, rfl⟩
    exact ⟨_, _, rfl, ⟨ha, rfl⟩, hb, rfl⟩

theorem Describes.record (hf : Describes f N L) {fields : β → α} {make : α → β}
    (h : ∀ b, make (fields b) = b) (h' : ∀ a, fields (make a) = a) :
    Describes (f.record fields make h) N fun b front => L (fields b) front := by
  constructor
  · intro s b rest hs
    rw [← hf.get_iff s (fields b) rest hs]
    constructor
    · intro hget
      obtain ⟨⟨a, r⟩, hread, heq⟩ := Option.map_eq_some_iff.mp hget
      cases heq
      rw [h', hread]
    · intro hget
      simp only [Format.record, hget, Option.map_some, h]
  · intro b front
    exact hf.nonempty (fields b) front

theorem Exact.record (hf : Exact f N) {fields : β → α} {make : α → β}
    (h : ∀ b, make (fields b) = b) (h' : ∀ a, fields (make a) = a) :
    Exact (f.record fields make h) N := Describes.record hf h h'

theorem Exact.getAll (hf : Exact f N) {n : ℕ} {l : List α} {rest : List UInt8}
    (hs : s.length < N) (h : f.getAll n s = some (l, rest)) :
    l.length = n ∧ (∀ a ∈ l, f.Valid a) ∧ s = f.putAll l ++ rest ∧ n + rest.length ≤ s.length := by
  induction n generalizing s l with
  | zero =>
    cases h
    exact ⟨rfl, fun _ ha => absurd ha List.not_mem_nil, rfl, (Nat.zero_add _).le⟩
  | succ n ih =>
    obtain ⟨⟨a, s'⟩, hget, h⟩ := Option.bind_eq_some_iff.mp h
    obtain ⟨⟨l', r⟩, hrest, heq⟩ := Option.map_eq_some_iff.mp h
    obtain ⟨rfl, rfl⟩ := Prod.mk.inj heq
    obtain ⟨front, hfront, rfl⟩ := (hf.get_iff _ _ _ hs).mp hget
    have hne := List.length_pos_iff.mpr (hf.nonempty a front hfront)
    obtain ⟨ha, rfl⟩ := hfront
    rw [List.length_append] at hs
    have hs' : s'.length < N := by omega
    obtain ⟨hlen, hvalid, rfl, hshort⟩ := ih hs' hrest
    refine ⟨congrArg Nat.succ hlen, ?_, ?_, ?_⟩
    · intro b hb
      rcases List.mem_cons.mp hb with rfl | hb
      · exact ha
      · exact hvalid b hb
    · rw [Format.putAll, List.append_assoc]
    · rw [List.length_append]
      omega

theorem Exact.sequence (hf : Exact f N) (hw : 0 < w) (hN : N ≤ 256 ^ w - 1) :
    Exact (f.sequence w) N := by
  apply exact_of_get
  · intro s l rest hs hget
    obtain ⟨⟨n, s'⟩, hnat, hall⟩ := Option.bind_eq_some_iff.mp hget
    obtain ⟨_, rfl⟩ := getNat_ok hnat
    rw [List.length_append] at hs
    have hs' : s'.length < N := by omega
    obtain ⟨rfl, hvalid, rfl, hshort⟩ := hf.getAll hs' hall
    refine ⟨⟨by omega, hvalid⟩, ?_⟩
    exact (List.append_assoc _ _ _).symm
  · intro l _ hnil
    exact putNat_ne_nil hw (List.append_eq_nil_iff.mp hnil).1

end FormatReading
