import SseSeal.AvlTree
import SseSeal.ClientCache
import SseSeal.StringCipher

/-! The oblivious dictionary of `Client`: an AVL tree whose nodes are linked by ids, lie
encrypted in an oblivious memory, and are cached during a session. Every operation may throw;
the counters of a session are unbounded here. -/
namespace OdictClient

open Bytes Objects StateExcept AvlTree StringCipher OramAccessController ClientCache

structure Client where
  rootId : ℤ
  rootPos : ℤ
  nodeCount : ℤ
  readCount : ℤ
  writeCount : ℤ
  cache : Cache
  controller : Controller
  secretKey : Str

inductive ClientError where
  | access (e : AccessError)
  | malformed
  | cipher
  | undefinedBehaviour
  | outOfFuel
  deriving DecidableEq, Repr

abbrev ClientM := EStateM ClientError Client

structure OdictOperation where
  id : ℤ
  data : Str
  op : OramAccessOp
  deriving DecidableEq, Repr

def Client.withController (k : Controller) (c : Client) : Client := { c with controller := k }

def onController {α : Type} (x : ControllerM α) : ClientM α :=
  focus Client.controller Client.withController .access x

def findPosById (id : ℤ) : ClientM ℤ := do
  let c ← get
  return if id = c.rootId then c.rootPos else c.cache.findPosById id

def cacheGet (id : ℤ) : ClientM Node := fun c =>
  .ok (c.cache.get id).1 { c with cache := (c.cache.get id).2 }

def cachePut (id : ℤ) (item : Node) : ClientM PUnit := do
  let c ← get
  let (_, cache) ← orThrow .undefinedBehaviour (c.cache.put id item)
  set { c with cache := cache }

section Ods

variable (codec : Codec Node)

def cacheHelper (id : ℤ) : ClientM Node := do
  let pos ← findPosById id
  let buffer ← onController
    (obliviousAccessDirect codec .read (codec.serialize (Node.ofTag id pos)))
  let ret ← orThrow .malformed (codec.deserialize buffer)
  let secretKey := (← get).secretKey
  let plaintext ← orThrow .cipher (decryptSm4Ebc ret.data secretKey)
  let key ← orThrow .cipher (decryptSm4Ebc ret.key secretKey)
  return { ret with data := plaintext, key := key }

/-- `ODS_access` on one operation; the result is the data of the operation afterwards. -/
def odsAccess (op : OdictOperation) : ClientM Str := do
  let node ← orThrow .malformed (codec.deserialize op.data)
  match op.op with
  | .read => do
    modify fun c => { c with readCount := c.readCount + 1 }
    let ret ← cacheGet op.id
    if ret.id ≠ 0 then return codec.serialize ret
    else do
      let fetched ← cacheHelper codec op.id
      let node := { fetched with oldTag := fetched.posTag }
      cachePut op.id node
      return codec.serialize node
  | .write => do
    modify fun c => { c with writeCount := c.writeCount + 1 }
    let ret ← cacheGet node.id
    if ret.id ≠ 0 then do
      cachePut ret.id node
      return op.data
    else do
      let _ ← cacheHelper codec op.id
      cachePut op.id node
      return op.data
  | .delete => do
    let ret ← cacheGet node.id
    if ret.id ≠ 0 then return op.data
    else do
      let _ ← cacheHelper codec op.id
      return op.data
  | .insert => do
    cachePut op.id node
    return op.data

def readFromOram (id : ℤ) : ClientM Node := do
  let data ← odsAccess codec ⟨id, codec.serialize (Node.ofTag id (-1)), .read⟩
  orThrow .malformed (codec.deserialize data)

def writeToOram (node : Node) : ClientM PUnit := do
  let _ ← odsAccess codec ⟨node.id, codec.serialize node, .write⟩

def odsStart : ClientM PUnit := modify fun c => { c with cache := c.cache.clear }

/-- The iterations of a loop from `pad_val - count` up to and with `pad_val`. -/
def dummyRounds (padVal count : ℤ) : ℕ := (padVal + 1 - (padVal - count)).toNat

def dummyRead : ClientM PUnit := do
  let _ ← onController (obliviousAccess .read 0 (ofAscii "ok"))

def dummyWrite : ClientM PUnit := do
  let _ ← onController (obliviousAccess .write 0 (codec.serialize (Node.ofTag 0 (-1))))

def evictNode : ClientM PUnit := do
  let c ← get
  match c.cache.cacheItems with
  | [] => throw .undefinedBehaviour
  | (_, node) :: _ => do
    let ciphertext ← orThrow .cipher (encryptSm4Ebc node.data c.secretKey)
    let encryptedKey ← orThrow .cipher (encryptSm4Ebc node.key c.secretKey)
    let buffer := codec.serialize { node with data := ciphertext, key := encryptedKey }
    let _ ← onController (obliviousAccessDirect codec .write buffer)
    modify fun c => { c with cache := c.cache.pop }

/-- The part of `ODS_finalize` that tags the cached nodes. -/
def retagCache : ClientM PUnit := do
  let c ← get
  let (rootPos, cache) ← onController (updatePos c.cache c.rootId)
  modify fun c => { c with rootPos := rootPos, cache := cache }

/-- The eviction of `ODS_finalize`: each iteration takes one item off the cache. -/
def evictCache : ClientM PUnit := do
  let c ← get
  c.cache.cacheItems.forM fun _ => evictNode codec

def odsFinalize (padVal : ℤ) : ClientM PUnit := do
  retagCache
  (List.range (dummyRounds padVal (← get).readCount)).forM fun _ => dummyRead
  evictCache codec
  (List.range (dummyRounds padVal (← get).writeCount)).forM fun _ => dummyWrite codec
  modify fun c => { c with writeCount := 0, readCount := 0 }

end Ods

def childId (s : Side) (node : Node) : ℤ := s.pick node.leftId node.rightId

def childHeight (s : Side) (node : Node) : ℤ := s.pick node.leftHeight node.rightHeight

def childTag (s : Side) (node : Node) : ℤ :=
  (s.pick node.childrenPos.1 node.childrenPos.2).posTag

def setChild (s : Side) (id height : ℤ) (node : Node) : Node :=
  match s with
  | .left => { node with leftId := id, leftHeight := height }
  | .right => { node with rightId := id, rightHeight := height }

def setChildTag (s : Side) (tag : ℤ) (node : Node) : Node :=
  match s with
  | .left => { node with childrenPos :=
      ({ node.childrenPos.1 with posTag := tag }, node.childrenPos.2) }
  | .right => { node with childrenPos :=
      (node.childrenPos.1, { node.childrenPos.2 with posTag := tag }) }

section Tree

variable (codec : Codec Node)

def rotateUp (s : Side) (rootId : ℤ) : ClientM Node := do
  let root ← readFromOram codec rootId
  let child ← readFromOram codec (childId s root)
  let root := setChild s (childId s.other child) (childHeight s.other child)
    (setChildTag s (childTag s.other child) root)
  writeToOram codec root
  let child := setChild s.other rootId (getHeight root) (setChildTag s.other root.posTag child)
  writeToOram codec child
  return child

def rotateTwice (s : Side) (rootId : ℤ) : ClientM Node := do
  let root ← readFromOram codec rootId
  let child ← rotateUp codec s.other (childId s root)
  let root := setChild s child.id (getHeight child) root
  writeToOram codec root
  rotateUp codec s rootId

def rightRotate (rootId : ℤ) : ClientM Node := rotateUp codec .left rootId

def leftRotate (rootId : ℤ) : ClientM Node := rotateUp codec .right rootId

def leftRightRotate (rootId : ℤ) : ClientM Node := rotateTwice codec .left rootId

def rightLeftRotate (rootId : ℤ) : ClientM Node := rotateTwice codec .right rootId

def balance (rootId : ℤ) : ClientM Node := do
  let root ← readFromOram codec rootId
  if 1 < root.leftHeight - root.rightHeight then do
    let left ← readFromOram codec root.leftId
    if left.rightHeight ≤ left.leftHeight then rightRotate codec rootId
    else leftRightRotate codec rootId
  else if 1 < root.rightHeight - root.leftHeight then do
    let right ← readFromOram codec root.rightId
    if right.leftHeight ≤ right.rightHeight then leftRotate codec rootId
    else rightLeftRotate codec rootId
  else return root

/-- `insert_priv`. The fuel bounds the depth of the recursion. -/
def insertPriv (node : Node) : ℕ → ℤ → ClientM Node
  | 0, _ => throw .outOfFuel
  | fuel + 1, rootId =>
    if rootId = 0 then do
      let _ ← odsAccess codec ⟨node.id, codec.serialize node, .insert⟩
      return node
    else do
      let root ← readFromOram codec rootId
      if root.key < node.key then do
        let cur ← insertPriv node fuel root.rightId
        writeToOram codec (setChild .right cur.id (getHeight cur) root)
      else if node.key < root.key then do
        let cur ← insertPriv node fuel root.leftId
        writeToOram codec (setChild .left cur.id (getHeight cur) root)
      else writeToOram codec root
      balance codec rootId

def findPriv (key : Str) : ℕ → ℤ → ClientM (Option Node)
  | 0, _ => throw .outOfFuel
  | fuel + 1, rootId =>
    if rootId = 0 then return none
    else do
      let root ← readFromOram codec rootId
      if root.key = key then return some root
      else if root.key < key then findPriv key fuel root.rightId
      else findPriv key fuel root.leftId

variable (fuel : ℕ) (pad : ℤ → ℤ)

def insertNode (node : Node) : ClientM Node := do
  let res ← insertPriv codec node fuel (← get).rootId
  modify fun c => if c.rootId = 0 then { c with rootId := res.id } else c
  return res

/-- `insert` of several nodes, in one session. `pad` is the padding for a count of nodes. -/
def insertNodes (nodes : List Node) : ClientM PUnit := do
  odsStart
  nodes.forM fun node => do
    let res ← insertNode codec fuel node
    modify fun c => { c with rootId := res.id }
  odsFinalize codec (pad (← get).nodeCount)

def find (key : Str) : ClientM (Option Node) := do
  odsStart
  let node ← findPriv codec key fuel (← get).rootId
  odsFinalize codec (pad (← get).nodeCount)
  return node

def initDummyData : ClientM PUnit := dummyWrite codec

end Tree

/-- The client that the constructor and the first lines of `adj_data_in` make, on an oblivious
memory just built. `INT_MAX` bounds its cache. -/
def Client.fresh (secretKey : Str) (order : HashOrder) (oram : OramReadPathEviction.Oram) :
    Client where
  rootId := 0
  rootPos := -1
  nodeCount := 1
  readCount := 0
  writeCount := 0
  cache := ⟨2 ^ 31 - 1, [], [], order, 0⟩
  controller := ⟨oram, 0⟩
  secretKey := secretKey

end OdictClient
