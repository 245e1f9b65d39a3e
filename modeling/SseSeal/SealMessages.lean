import SseSeal.SealService
import SseSeal.WireFormat

/-! The messages between client and server, and what their classes read and write. -/
namespace SealMessages

open Bytes MessageFormat MessageRecords WireFormat SealService

structure SetupMessage where
  connectionInformation : Str
  tableName : Str
  columnNames : List Str

structure BucketReadResponse where
  buffer : Str

structure InsertMessage where
  table : Str
  values : List Str

structure SelectMessage where
  table : Str
  columns : List Str
  documentId : Str

structure SelectResult where
  resultSet : Str

section Copies

variable {α : Type} {n : ℕ} {a target : α}

-- A field is left out when it has its default, which the target then has as well.

theorem merge_bool {get : α → Bool} {set : Bool → α → α} (h : set false target = target) :
    MessageField.merge a target (.bool n get set) = set (get a) target := by
  rw [MessageField.merge]
  split
  · rfl
  · rename_i hget
    rw [Bool.not_eq_true] at hget
    rw [hget, h]

theorem merge_int32 {get : α → ℤ} {set : ℤ → α → α} (h : set 0 target = target) :
    MessageField.merge a target (.int32 n get set) = set (get a) target := by
  rw [MessageField.merge]
  split
  · rename_i hget
    rw [hget, h]
  · rfl

theorem merge_bytes {get : α → Str} {set : Str → α → α} (h : set [] target = target) :
    MessageField.merge a target (.bytes n get set) = set (get a) target := by
  rw [MessageField.merge]
  split
  · rename_i hget
    rw [hget, h]
  · rfl

theorem merge_repeatedBytes {get : α → List Str} {add : Str → α → α} (make : List Str → α)
    (hadd : ∀ l s, add s (make l) = make (l ++ [s])) :
    MessageField.merge a (make []) (.repeatedBytes n get add) = make (get a) := by
  rw [MessageField.merge]
  generalize get a = l
  induction l using List.reverseRecOn with
  | nil => rfl
  | append_singleton l s ih => rw [List.foldl_append, ih, List.foldl_cons, hadd, List.foldl_nil]

end Copies

def setupMessage : MessageClass SetupMessage where
  fields := [
    .bytes 1 SetupMessage.connectionInformation fun v m => { m with connectionInformation := v },
    .bytes 2 SetupMessage.tableName fun v m => { m with tableName := v },
    .repeatedBytes 3 SetupMessage.columnNames fun v m =>
      { m with columnNames := m.columnNames ++ [v] }]
  default := ⟨[], [], []⟩
  number_lt := by decide
  distinct := by decide
  copy a := by
    rw [List.foldl_cons, merge_bytes rfl, List.foldl_cons, merge_bytes rfl, List.foldl_cons]
    exact merge_repeatedBytes (SetupMessage.mk a.connectionInformation a.tableName) fun _ _ => rfl

def bucketReadMessage : MessageClass BucketReadMessage where
  fields := [
    .bool 1 (fun m => m.isOdict) fun v m => { m with isOdict := v },
    .int32 2 (fun m => m.position) fun v m => { m with position := v },
    .int32 3 (fun m => m.oramId) fun v m => { m with oramId := v },
    .bytes 4 (fun m => m.mapKey) fun v m => { m with mapKey := v }]
  default := ⟨⟨false, 0, []⟩, 0⟩
  number_lt := by decide
  distinct := by decide
  copy a := by
    rw [List.foldl_cons, merge_bool rfl, List.foldl_cons, merge_int32 rfl, List.foldl_cons,
      merge_int32 rfl, List.foldl_cons, merge_bytes rfl]
    rfl

def bucketReadResponse : MessageClass BucketReadResponse where
  fields := [.bytes 1 BucketReadResponse.buffer fun v m => { m with buffer := v }]
  default := ⟨[]⟩
  number_lt := by decide
  distinct := by decide
  copy a := by
    rw [List.foldl_cons, merge_bytes rfl]
    rfl

def bucketWriteMessage : MessageClass BucketWriteMessage where
  fields := [
    .bool 1 (fun m => m.isOdict) fun v m => { m with isOdict := v },
    .int32 2 (fun m => m.position) fun v m => { m with position := v },
    .bytes 3 (fun m => m.buffer) fun v m => { m with buffer := v },
    .int32 4 (fun m => m.oramId) fun v m => { m with oramId := v },
    .bytes 5 (fun m => m.mapKey) fun v m => { m with mapKey := v }]
  default := ⟨⟨false, 0, []⟩, 0, []⟩
  number_lt := by decide
  distinct := by decide
  copy a := by
    rw [List.foldl_cons, merge_bool rfl, List.foldl_cons, merge_int32 rfl, List.foldl_cons,
      merge_bytes rfl, List.foldl_cons, merge_int32 rfl, List.foldl_cons, merge_bytes rfl]
    rfl

def bucketSetMessage : MessageClass BucketSetMessage where
  fields := [
    .bool 1 (fun m => m.isOdict) fun v m => { m with isOdict := v },
    .int32 2 (fun m => m.numberOfBuckets) fun v m => { m with numberOfBuckets := v },
    .int32 3 (fun m => m.oramId) fun v m => { m with oramId := v },
    .bytes 4 (fun m => m.mapKey) fun v m => { m with mapKey := v }]
  default := ⟨⟨false, 0, []⟩, 0⟩
  number_lt := by decide
  distinct := by decide
  copy a := by
    rw [List.foldl_cons, merge_bool rfl, List.foldl_cons, merge_int32 rfl, List.foldl_cons,
      merge_int32 rfl, List.foldl_cons, merge_bytes rfl]
    rfl

def insertMessage : MessageClass InsertMessage where
  fields := [
    .bytes 1 InsertMessage.table fun v m => { m with table := v },
    .repeatedBytes 2 InsertMessage.values fun v m => { m with values := m.values ++ [v] }]
  default := ⟨[], []⟩
  number_lt := by decide
  distinct := by decide
  copy a := by
    rw [List.foldl_cons, merge_bytes rfl, List.foldl_cons]
    exact merge_repeatedBytes (InsertMessage.mk a.table) fun _ _ => rfl

def selectMessage : MessageClass SelectMessage where
  fields := [
    .bytes 1 SelectMessage.table fun v m => { m with table := v },
    .repeatedBytes 2 SelectMessage.columns fun v m => { m with columns := m.columns ++ [v] },
    .bytes 3 SelectMessage.documentId fun v m => { m with documentId := v }]
  default := ⟨[], [], []⟩
  number_lt := by decide
  distinct := by decide
  copy a := by
    have hcolumns : MessageField.merge a ⟨a.table, [], []⟩ (.repeatedBytes 2 SelectMessage.columns
        fun v m => { m with columns := m.columns ++ [v] }) = ⟨a.table, a.columns, []⟩ :=
      merge_repeatedBytes (fun l => SelectMessage.mk a.table l []) fun _ _ => rfl
    rw [List.foldl_cons, merge_bytes rfl, List.foldl_cons, hcolumns, List.foldl_cons,
      merge_bytes rfl]
    rfl

def selectResult : MessageClass SelectResult where
  fields := [.bytes 1 SelectResult.resultSet fun v m => { m with resultSet := v }]
  default := ⟨[]⟩
  number_lt := by decide
  distinct := by decide
  copy a := by
    rw [List.foldl_cons, merge_bytes rfl]
    rfl

inductive MessageName where
  | setupMessage
  | bucketReadMessage
  | bucketReadResponse
  | bucketWriteMessage
  | bucketSetMessage
  | insertMessage
  | selectMessage
  | selectResult
  deriving DecidableEq, Repr

abbrev MessageName.Fields : MessageName → Type
  | .setupMessage => SetupMessage
  | .bucketReadMessage => BucketReadMessage
  | .bucketReadResponse => BucketReadResponse
  | .bucketWriteMessage => BucketWriteMessage
  | .bucketSetMessage => BucketSetMessage
  | .insertMessage => InsertMessage
  | .selectMessage => SelectMessage
  | .selectResult => SelectResult

def classOf : (name : MessageName) → MessageClass name.Fields
  | .setupMessage => setupMessage
  | .bucketReadMessage => bucketReadMessage
  | .bucketReadResponse => bucketReadResponse
  | .bucketWriteMessage => bucketWriteMessage
  | .bucketSetMessage => bucketSetMessage
  | .insertMessage => insertMessage
  | .selectMessage => selectMessage
  | .selectResult => selectResult

theorem classOf_keeps (name : MessageName) : MessageClass.Keeps (classOf name) := by
  cases name
  all_goals
    constructor
    all_goals
      simp only [classOf, setupMessage, bucketReadMessage, bucketReadResponse, bucketWriteMessage,
        bucketSetMessage, insertMessage, selectMessage, selectResult, List.forall_mem_cons]
      simp +contextual [MessageField.Valid, MessageField.Keeps]

section Messages

variable {U : Type} {r : Runtime U} {N : ℕ}

/-- What a class accepts is a sequence of records, in any order and with unknown fields among
them, and it accepts all of these. -/
theorem messages_are_records (name : MessageName) (hr : Runtime.Lawful r N) {s : Str}
    (hs : s.length < N) (m : Message name.Fields U) :
    parseFromString r (classOf name) s = some m ↔
      Parses r (classOf name) (classOf name).cleared s m :=
  parseFromString_iff hr.readsTags hs

theorem messages_are_records_sample :
    parseFromString wire (classOf .insertMessage) [18, 1, 97, 40, 7, 18, 1, 98, 10, 1, 116] =
      some ⟨InsertMessage.mk [116] [[97], [98]], [⟨5, by decide, .varint 7⟩]⟩ := by
  refine (messages_are_records .insertMessage wire_lawful (by decide) _).mpr ?_
  have htable : MessageField.bytes 1 InsertMessage.table (fun v m => { m with table := v }) ∈
      insertMessage.fields := List.mem_of_getElem? (i := 0) rfl
  have hvalues : MessageField.repeatedBytes 2 InsertMessage.values
      (fun v m => { m with values := m.values ++ [v] }) ∈ insertMessage.fields :=
    List.mem_of_getElem? (i := 1) rfl
  have hunknown : ∀ f ∈ insertMessage.fields, 40 ≠ f.tag := by decide
  have hfirst : wire.readTag [18, 1, 97, 40, 7, 18, 1, 98, 10, 1, 116] =
      some (18, [1, 97, 40, 7, 18, 1, 98, 10, 1, 116]) := rfl
  have hsecond : wire.readTag [40, 7, 18, 1, 98, 10, 1, 116] =
      some (40, [7, 18, 1, 98, 10, 1, 116]) := rfl
  have hthird : wire.readTag [18, 1, 98, 10, 1, 116] = some (18, [1, 98, 10, 1, 116]) := rfl
  have hfourth : wire.readTag [10, 1, 116] = some (10, [1, 116]) := rfl
  refine .field (a := ⟨[], [[97]]⟩) hvalues hfirst rfl ?_
  refine .unknown (u := ⟨5, by decide, .varint 7⟩) hunknown hsecond (by decide) rfl ?_
  refine .field (a := ⟨[], [[97], [98]]⟩) hvalues hthird rfl ?_
  refine .field (a := ⟨[116], [[97], [98]]⟩) htable hfourth rfl ?_
  exact .nil _

/-- Bytes that were written for a message and follow any that a class accepts are merged into
what those say. -/
theorem messages_merge (name : MessageName) (hr : Runtime.Lawful r N) {s : Str}
    {m b : Message name.Fields U} (hs : parseFromString r (classOf name) s = some m)
    (hb : Message.Valid r (classOf name) b) (hN : (s ++ serialize r (classOf name) b).length < N) :
    parseFromString r (classOf name) (s ++ serialize r (classOf name) b) =
      some (mergeFrom (classOf name) m b) := parseFromString_append hr hs hb hN

def sampleMessage : Message InsertMessage Unknown := ⟨⟨[116], [[97]]⟩, []⟩

theorem sampleMessage_bytes :
    serialize wire (classOf .insertMessage) sampleMessage = [10, 1, 116, 18, 1, 97] := by
  simp [serialize, classOf, insertMessage, MessageField.serialize, sampleMessage, wire, putString,
    putVarint_small]

theorem sampleMessage_valid : Message.Valid wire (classOf .insertMessage) sampleMessage := by
  constructor
  · simp [classOf, insertMessage, sampleMessage, MessageField.Valid]
  · simp [sampleMessage]

theorem messages_merge_sample :
    parseFromString wire (classOf .insertMessage)
        ([18, 1, 98] ++ serialize wire (classOf .insertMessage) sampleMessage) =
      some ⟨InsertMessage.mk [116] [[98], [97]], []⟩ := by
  have hvalues : MessageField.repeatedBytes 2 InsertMessage.values
      (fun v m => { m with values := m.values ++ [v] }) ∈ insertMessage.fields :=
    List.mem_of_getElem? (i := 1) rfl
  have htag : wire.readTag [18, 1, 98] = some (18, [1, 98]) := rfl
  have hs : parseFromString wire (classOf .insertMessage) [18, 1, 98] =
      some ⟨InsertMessage.mk [] [[98]], []⟩ := by
    refine (parseFromString_iff wire_lawful.readsTags (by decide)).mpr ?_
    exact .field (a := ⟨[], [[98]]⟩) hvalues htag rfl (.nil _)
  have hN : ([18, 1, 98] ++ serialize wire (classOf .insertMessage) sampleMessage).length <
      maxSize := by
    rw [sampleMessage_bytes]
    decide
  exact messages_merge .insertMessage wire_lawful hs sampleMessage_valid hN

/-- What is written for a message that has valid fields or was read is read back as the message,
and takes the space that was foreseen for it. -/
theorem messages_read_back (name : MessageName) (hr : Runtime.Lawful r N)
    {m : Message name.Fields U} (hm : Message.Valid r (classOf name) m ∨
      ∃ s, s.length < N ∧ parseFromString r (classOf name) s = some m)
    (hN : (serialize r (classOf name) m).length < N) :
    parseFromString r (classOf name) (serialize r (classOf name) m) = some m ∧
      byteSizeLong r (classOf name) m = (serialize r (classOf name) m).length := by
  have hvalid : Message.Valid r (classOf name) m := by
    rcases hm with hm | ⟨s, hs, hparse⟩
    · exact hm
    · exact parseFromString_valid hr (classOf_keeps name) hs hparse
  exact ⟨parseFromString_serialize hr hvalid hN, byteSizeLong_eq hr hvalid hN⟩

theorem messages_read_back_sample :
    parseFromString wire (classOf .insertMessage)
        (serialize wire (classOf .insertMessage) sampleMessage) = some sampleMessage ∧
      byteSizeLong wire (classOf .insertMessage) sampleMessage = 6 := by
  have hN : (serialize wire (classOf .insertMessage) sampleMessage).length < maxSize := by
    rw [sampleMessage_bytes]
    decide
  obtain ⟨hparse, hsize⟩ :=
    messages_read_back .insertMessage wire_lawful (Or.inl sampleMessage_valid) hN
  exact ⟨hparse, hsize.trans (congrArg List.length sampleMessage_bytes)⟩

end Messages

end SealMessages
