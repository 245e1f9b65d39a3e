import SseSeal.Objects
import SseSeal.StateExcept
import Mathlib.Data.Nat.Log
import Mathlib.Logic.Function.Basic

/-! `OramReadPathEviction`, the Path ORAM client, with the storage, the random
generator and the static bucket size it uses. A storage call may throw; the state
reached before the exception survives it. -/
namespace OramReadPathEviction

open Bytes Objects

def toInt (n : ℕ) : ℤ :=
  if n % 2 ^ 32 < 2 ^ 31 then (n % 2 ^ 32 : ℕ) else (n % 2 ^ 32 : ℕ) - 2 ^ 32

def toUnsigned (i : ℤ) : ℕ := (i % 2 ^ 32).toNat

structure Block where
  leafId : ℤ
  index : ℤ
  data : Str
  deriving DecidableEq, Repr

def Block.dummy : Block := ⟨-1, -1, []⟩

abbrev Bucket := List Block

/-- `Bucket::addBlock`: a block beyond `Bucket::max_size` is silently dropped. -/
def addBlock (maxSize : ℕ) (bucket : Bucket) (newBlk : Block) : Bucket :=
  if bucket.length < maxSize then bucket ++ [newBlk] else bucket

inductive StorageError where
  | outOfRange (position capacity : ℕ)
  | rpc
  | malformed
  | notEnoughSpace
  | undefinedBehaviour
  deriving DecidableEq, Repr

inductive StorageCall where
  | read (position : ℕ)
  | write (position : ℕ)
  deriving DecidableEq, Repr

/-- `ServerStorage` and the buckets the server holds for it. `calls` records the
positions passed to ReadBucket and WriteBucket, and `fails k` makes call `k` throw. -/
structure Storage where
  capacity : ℕ
  buckets : ℕ → Bucket
  calls : List StorageCall
  fails : ℕ → Bool

/-- A `ServerStorage` to which no call has been made, and whose calls never throw. -/
def Storage.new : Storage := ⟨0, fun _ => [], [], fun _ => false⟩

/-- `RandomForOram`: `rng` is the stream of values of its generator. -/
structure RandomForOram where
  bound : ℕ
  rng : ℕ → ℤ
  used : ℕ

structure Oram where
  bucketSize : ℕ
  numLevels : ℕ
  numLeaves : ℕ
  numBlocks : ℕ
  numBuckets : ℕ
  /-- A key that was never assigned reads as the 0 that `operator[]` creates. -/
  positionMap : ℕ → ℕ
  stash : List Block
  /-- The static `Bucket::max_size`. -/
  maxSize : ℕ
  storage : Storage
  randGen : RandomForOram

abbrev OramM := EStateM StorageError Oram

def Oram.logCall (o : Oram) (c : StorageCall) : Oram :=
  { o with storage := { o.storage with calls := o.storage.calls ++ [c] } }

def Oram.failsNow (o : Oram) : Bool := o.storage.fails o.storage.calls.length

def readBucket (position : ℕ) : OramM Bucket := fun o =>
  if o.storage.capacity ≤ position then
    .error (.outOfRange position o.storage.capacity) (o.logCall (.read position))
  else if o.failsNow then .error .rpc (o.logCall (.read position))
  else .ok (o.storage.buckets position) (o.logCall (.read position))

def Oram.storeBucket (o : Oram) (position : ℕ) (bucket : Bucket) : Oram :=
  { o with storage :=
    { o.storage with buckets := Function.update o.storage.buckets position bucket } }

def writeBucket (position : ℕ) (bucket : Bucket) : OramM PUnit := fun o =>
  if o.storage.capacity ≤ position then
    .error (.outOfRange position o.storage.capacity) (o.logCall (.write position))
  else if o.failsNow then .error .rpc (o.logCall (.write position))
  else .ok ⟨⟩ ((o.logCall (.write position)).storeBucket position bucket)

/-- The leaf `getRandomLeaf` computes from the next value of the generator. -/
def RandomForOram.leaf (r : RandomForOram) : ℕ :=
  let randVal := Int.tmod (r.rng r.used) r.bound
  (if randVal < 0 then randVal + r.bound else randVal).toNat

def RandomForOram.advance (r : RandomForOram) : RandomForOram := { r with used := r.used + 1 }

def getRandomLeaf : OramM ℕ := fun o =>
  .ok o.randGen.leaf { o with randGen := o.randGen.advance }

def Oram.P (o : Oram) (leaf level : ℕ) : ℕ :=
  (1 <<< level) - 1 + (leaf >>> (o.numLevels - level - 1))

def readLevel (oldLeaf i : ℕ) : OramM PUnit := do
  let blocks ← readBucket ((← get).P oldLeaf i)
  modify fun o => { o with stash := o.stash ++ blocks.filter (·.index != -1) }

def overwriteFirst (index : ℤ) (data : Str) : List Block → List Block
  | [] => []
  | b :: stash =>
    if b.index = index then { b with data := data } :: stash
    else b :: overwriteFirst index data stash

def accessStash (op : Operation) (blockIndex : ℕ) (newLeaf : ℤ) (newData : Str) : OramM Str :=
  fun o =>
    match op, o.stash.find? (·.index = toInt blockIndex) with
    | .write, none =>
      .ok [] { o with stash := o.stash ++ [⟨newLeaf, toInt blockIndex, newData⟩] }
    | .write, some _ =>
      .ok [] { o with stash := overwriteFirst (toInt blockIndex) newData o.stash }
    | .read, none => .ok [] o
    | .read, some b => .ok b.data o

/-- The loop over the stash that fills a bucket: the bucket, the indices of the evicted
blocks and their number. It stops when the number reaches the bucket size. -/
def collect (bucketSize maxSize : ℕ) (fits : Block → Bool) :
    List Block → Bucket × List ℤ × ℕ → Bucket × List ℤ × ℕ
  | [], acc => acc
  | b :: stash, (bucket, bidEvicted, counter) =>
    if bucketSize ≤ counter then (bucket, bidEvicted, counter)
    else if fits b then
      collect bucketSize maxSize fits stash
        (addBlock maxSize bucket b, bidEvicted ++ [b.index], counter + 1)
    else collect bucketSize maxSize fits stash (bucket, bidEvicted, counter)

/-- The loops that erase, for each evicted index, the first block of the stash with it. -/
def eraseEvicted (bidEvicted : List ℤ) (stash : List Block) : List Block :=
  bidEvicted.foldl (fun stash bid => stash.eraseP (·.index = bid)) stash

def padBucket (maxSize : ℕ) (bucket : Bucket) : ℕ → Bucket
  | 0 => bucket
  | n + 1 => padBucket maxSize (addBlock maxSize bucket Block.dummy) n

/-- One iteration of the eviction: the stash loses its blocks before the bucket is written. -/
def evictLevel (oldLeaf l : ℕ) : OramM PUnit := do
  let o ← get
  let Pxl := o.P oldLeaf l
  let (bucket, bidEvicted, counter) := collect o.bucketSize o.maxSize
    (fun b => Pxl = o.P (o.positionMap (toUnsigned b.index)) l) o.stash ([], [], 0)
  set { o with stash := eraseEvicted bidEvicted o.stash }
  writeBucket Pxl (padBucket o.maxSize bucket (o.bucketSize - counter))

def accessHandler (op : Operation) (blockIndex oldLeaf : ℕ) (newLeaf : ℤ) (newData : Str) :
    OramM Str := do
  let numLevels := (← get).numLevels
  (List.range numLevels).forM (readLevel oldLeaf)
  let data ← accessStash op blockIndex newLeaf newData
  (List.range numLevels).reverse.forM (evictLevel oldLeaf)
  return data

/-- The new leaf of a direct access: drawn on a read, the tag of the node on a write. -/
def directLeaf (op : Operation) (node : Node) : OramM ℤ :=
  if op = .read ∨ node.id = 0 then do
    let leaf ← getRandomLeaf
    return leaf
  else return node.posTag

/-- `access_direct` takes the index from the serialized node. It computes a new leaf
but leaves the position map as it is. -/
def accessDirect (codec : Codec Node) (op : Operation) (newData : Str) : OramM Str := do
  match codec.deserialize newData with
  | none => throw .malformed
  | some node =>
    let blockIndex := toUnsigned node.id
    let oldLeaf := (← get).positionMap blockIndex
    let newLeaf ← directLeaf op node
    accessHandler op blockIndex oldLeaf newLeaf newData

/-- `access` assigns the index a new leaf before it reads the path of the old one. -/
def access (op : Operation) (blockIndex : ℕ) (newData : Str) : OramM Str := do
  let oldLeaf := (← get).positionMap blockIndex
  let newLeaf ← getRandomLeaf
  modify fun o => { o with positionMap := Function.update o.positionMap blockIndex newLeaf }
  accessHandler op blockIndex oldLeaf newLeaf newData

/-- The object before the body of its constructor runs. -/
def blank (bucketSize numBlocks : ℕ) (storage : Storage) (randGen : RandomForOram) : Oram where
  bucketSize := bucketSize
  numBlocks := numBlocks
  numLevels := Nat.clog 2 numBlocks + 1
  numBuckets := 2 ^ (Nat.clog 2 numBlocks + 1) - 1
  numLeaves := 2 ^ Nat.clog 2 numBlocks
  positionMap := fun _ => 0
  stash := []
  maxSize := bucketSize
  storage := storage
  randGen := randGen

/-- The bound of the generator and the capacity of the storage, as the constructor sets them;
the server then holds empty buckets. -/
def Oram.sized (o : Oram) : Oram :=
  { o with
    randGen := { o.randGen with bound := o.numLeaves }
    storage := { o.storage with capacity := o.numBuckets, buckets := fun _ => [] } }

def drawPosition (i : ℕ) : OramM PUnit := do
  let leaf ← getRandomLeaf
  modify fun o => { o with positionMap := Function.update o.positionMap i leaf }

def initBucket (i : ℕ) : OramM PUnit := do
  let o ← get
  writeBucket i (padBucket o.maxSize [] o.bucketSize)

/-- The body of the constructor. With no block, or more than 31 levels, the
floating-point conversions and the shifts on `int` are undefined. -/
def construct : OramM PUnit := do
  let o ← get
  if o.numBlocks = 0 ∨ 31 < o.numLevels then throw .undefinedBehaviour
  else if o.numBuckets * o.bucketSize % 2 ^ 32 < o.numBlocks then throw .notEnoughSpace
  else do
    set o.sized
    (List.range o.numBlocks).forM drawPosition
    (List.range o.numBuckets).forM initBucket

theorem construct_small :
    ∃ o, construct.run (blank 1 2 .new ⟨0, fun k => k, 0⟩) = .ok ⟨⟩ o := ⟨_, rfl⟩

end OramReadPathEviction
