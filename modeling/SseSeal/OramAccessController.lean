import SseSeal.OramMemory

/-! `OramAccessController`: the client of one oblivious memory, as the rest of the program
sees it. -/
namespace OramAccessController

open Bytes Objects OramReadPathEviction OramEviction OramBlocks StateExcept OramCalls OramMemory

inductive AccessError where
  | unsupportedOperation
  | storage (e : StorageError)
  deriving DecidableEq, Repr

/-- A controller, with the number of accesses it has issued. -/
structure Controller where
  oram : Oram
  accesses : ℕ

abbrev ControllerM := EStateM AccessError Controller

def onOram {α : Type} (x : OramM α) : ControllerM α :=
  focus Controller.oram (fun o c => { c with oram := o }) .storage x

/-- One access of the oblivious memory, of an operation that `deduct_operation` admits. -/
def issue (op : OramAccessOp) (access : Operation → OramM Str) : ControllerM Str := do
  match deductOperation op with
  | none => throw .unsupportedOperation
  | some operation =>
    modify fun c => { c with accesses := c.accesses + 1 }
    onOram (access operation)

/-- `oblivious_access`; the result replaces the data passed by reference. -/
def obliviousAccess (op : OramAccessOp) (address : ℤ) (data : Str) : ControllerM Str :=
  issue op fun operation => access operation (toUnsigned address) data

def obliviousAccessDirect (codec : Codec Node) (op : OramAccessOp) (data : Str) :
    ControllerM Str :=
  issue op fun operation => accessDirect codec operation data

def randomNewPos : ControllerM ℤ := do
  let leaf ← onOram getRandomLeaf
  return leaf

theorem issue_accesses {op : OramAccessOp} {access : Operation → OramM Str} {c c' : Controller}
    {answer : Str} (h : (issue op access).run c = .ok answer c') :
    c'.accesses = c.accesses + 1 := by
  rw [issue] at h
  split at h
  · cases h
  · obtain ⟨_, _, hcount, h⟩ := bind_ok h
    cases hcount
    simp only [onOram, focus, EStateM.run] at h
    split at h
    · cases h
      rfl
    · cases h

variable {c : Controller} {m : ℤ → Option Str} {i : ℤ}

/-- The storage of the controller never throws, and its instance is the memory `m`. -/
structure Serves (c : Controller) (m : ℤ → Option Str) : Prop where
  reliable : Reliable c.oram
  holds : Holds c.oram m

theorem serves_construct {bucketSize numBlocks : ℕ} {storage : Storage}
    {randGen : RandomForOram} {o : Oram} (hs : ∀ k, storage.fails k = false)
    (h : construct.run (blank bucketSize numBlocks storage randGen) = .ok ⟨⟩ o) :
    Serves ⟨o, 0⟩ fun _ => none :=
  ⟨reliable_construct hs h, holds_construct h⟩

theorem toUnsigned_cast (h : 0 ≤ i ∧ i < 2 ^ 31) : (toUnsigned i : ℤ) = i := by
  rw [toUnsigned, Int.toNat_of_nonneg (Int.emod_nonneg _ (by decide)),
    Int.emod_eq_of_lt h.1 (by omega)]

theorem onOram_returns {α : Type} {x : OramM α} {post : α → Oram → Prop}
    (h : Returns x c.oram post) :
    Returns (onOram x) c fun a c' => ∃ o, post a o ∧ c' = { c with oram := o } :=
  h.focus Controller.oram (fun o c => { c with oram := o }) AccessError.storage

theorem issue_returns (codec : Codec Node) (hs : Serves c m) (call : Call) (hc : call.InRange)
    {op : OramAccessOp} (hop : deductOperation op = some call.op)
    {access : Operation → OramM Str} (hrun : access call.op = call.run codec) :
    Returns (issue op access) c fun answer c' => answer = reply m call ∧
      Serves c' (store codec m call) ∧ c'.accesses = c.accesses + 1 := by
  obtain ⟨hnext, hans⟩ := holds_next hs.holds hc codec
  have hcall : Returns (access call.op) c.oram fun answer o =>
      answer = call.answer c.oram ∧ o = call.next codec c.oram := by
    rw [hrun]
    exact ⟨_, _, Call.run_ok hs.reliable hs.holds.wellFormed codec call, rfl, rfl⟩
  simp only [issue, hop]
  refine returns_modify.bind ?_
  intro _ _ hstep
  subst hstep
  refine (onOram_returns (c := { c with accesses := c.accesses + 1 }) hcall).imp ?_
  intro _ _ hpost
  obtain ⟨_, ⟨rfl, rfl⟩, rfl⟩ := hpost
  exact ⟨hans, ⟨next_reliable hs.reliable codec, hnext⟩, rfl⟩

theorem access_inRange (hi : 0 ≤ i ∧ i < 2 ^ 31) (op : Operation) (data : Str) :
    (Call.access op (toUnsigned i) data).InRange := by
  simp only [Call.InRange, toUnsigned]
  omega

theorem access_read_returns (hs : Serves c m) (hi : 0 ≤ i ∧ i < 2 ^ 31) (data : Str) :
    Returns (obliviousAccess .read i data) c fun answer c' =>
      answer = (m i).getD [] ∧ Serves c' m ∧ c'.accesses = c.accesses + 1 := by
  rw [obliviousAccess]
  refine (issue_returns ObjectArchive.nodeCodec hs (.access .read (toUnsigned i) data)
    (access_inRange hi _ _) rfl rfl).imp ?_
  intro _ _ hpost
  obtain ⟨rfl, hserves, hcount⟩ := hpost
  refine ⟨?_, hserves, hcount⟩
  simp only [reply, Call.op, Call.index, toUnsigned_cast hi]

theorem access_write_returns (hs : Serves c m) (hi : 0 ≤ i ∧ i < 2 ^ 31) (data : Str) :
    Returns (obliviousAccess .write i data) c fun _ c' =>
      Serves c' (Function.update m i (some data)) ∧ c'.accesses = c.accesses + 1 := by
  rw [obliviousAccess]
  refine (issue_returns ObjectArchive.nodeCodec hs (.access .write (toUnsigned i) data)
    (access_inRange hi _ _) rfl rfl).imp ?_
  intro _ _ hpost
  obtain ⟨_, hserves, hcount⟩ := hpost
  simp only [store, Call.op, Call.index, Call.data, toUnsigned_cast hi] at hserves
  exact ⟨hserves, hcount⟩

section Direct

variable {codec : Codec Node} {node : Node}

theorem direct_read_returns (hs : Serves c m) (hi : 0 ≤ node.id ∧ node.id < 2 ^ 31) :
    Returns (obliviousAccessDirect codec .read (codec.serialize node)) c fun answer c' =>
      answer = (m node.id).getD [] ∧ Serves c' m ∧ c'.accesses = c.accesses + 1 := by
  rw [obliviousAccessDirect]
  refine (issue_returns codec hs (.direct .read node) hi rfl rfl).imp ?_
  intro _ _ hpost
  obtain ⟨rfl, hserves, hcount⟩ := hpost
  refine ⟨?_, hserves, hcount⟩
  simp only [reply, Call.op, Call.index, toUnsigned_cast hi]

theorem direct_write_returns (hs : Serves c m) (hi : 0 ≤ node.id ∧ node.id < 2 ^ 31) :
    Returns (obliviousAccessDirect codec .write (codec.serialize node)) c fun _ c' =>
      Serves c' (Function.update m node.id (some (codec.serialize node))) ∧
        c'.accesses = c.accesses + 1 := by
  rw [obliviousAccessDirect]
  refine (issue_returns codec hs (.direct .write node) hi rfl rfl).imp ?_
  intro _ _ hpost
  obtain ⟨_, hserves, hcount⟩ := hpost
  simp only [store, Call.op, Call.index, Call.data, toUnsigned_cast hi] at hserves
  exact ⟨hserves, hcount⟩

end Direct

theorem Serves.advance (hs : Serves c m) :
    Serves { c with oram := { c.oram with randGen := c.oram.randGen.advance } } m := by
  obtain ⟨hreliable, ⟨hw, hblocks, hplaced⟩⟩ := hs
  have hprep := Call.prepare_wellFormed (c := .direct .read (.ofTag 0 0)) hw
  exact ⟨hreliable, ⟨hprep, hblocks, hplaced⟩⟩

theorem randomNewPos_returns (hs : Serves c m) :
    Returns randomNewPos c fun _ c' => Serves c' m ∧ c'.accesses = c.accesses := by
  have hdraw : Returns getRandomLeaf c.oram fun _ o =>
      o = { c.oram with randGen := c.oram.randGen.advance } := ⟨_, _, rfl, rfl⟩
  refine (onOram_returns hdraw).bind ?_
  intro _ _ hpost
  obtain ⟨_, rfl, rfl⟩ := hpost
  exact returns_pure ⟨hs.advance, rfl⟩

end OramAccessController
