import Mathlib.Data.Nat.Bitwise

/-!
# The LRU lists of the disk cache

`Rankings` keeps lists of entries in blocks that are linked in both directions; the first and
the last block of a list are linked to themselves.  The heads and tails of the lists are in the
control data, which also has a record of the operation in progress.

The functions give the writes that they make, in order, so that a crash leaves the effect of a
first part of them.  The blocks that a function loads are values, which may be copies of the
same block.  Times, counters, iterators and the hash of a block are left out.
-/

namespace ChromiumBase.Rankings

namespace Addr

def rankings : ℕ := 1
def block4K : ℕ := 4

def isInitialized (value : ℕ) : Bool := value &&& 0x80000000 ≠ 0

def isSeparateFile (value : ℕ) : Bool := value &&& 0x70000000 = 0

def fileType (value : ℕ) : ℕ := (value &&& 0x70000000) >>> 28

def sanityCheck (value : ℕ) : Bool :=
  if !isInitialized value then value = 0
  else if block4K < fileType value then false
  else if isSeparateFile value then true
  else value &&& 0x0c000000 = 0

end Addr

structure RankingsNode where
  prev : ℕ
  next : ℕ
deriving DecidableEq, Repr

def kLastElement : ℕ := 5

def kInsert : ℕ := 1
def kRemove : ℕ := 2

structure Disk where
  nodes : ℕ → RankingsNode
  heads : ℕ → ℕ
  tails : ℕ → ℕ
  transaction : ℕ
  operation : ℕ
  operationList : ℕ

inductive Write where
  | node (address : ℕ) (data : RankingsNode)
  | head (list value : ℕ)
  | tail (list value : ℕ)
  | transaction (value : ℕ)
  | operation (value : ℕ)
  | operationList (value : ℕ)
deriving DecidableEq, Repr

variable (d : Disk)

def Disk.write : Write → Disk
  | .node address data => { d with nodes := Function.update d.nodes address data }
  | .head list value => { d with heads := Function.update d.heads list value }
  | .tail list value => { d with tails := Function.update d.tails list value }
  | .transaction value => { d with transaction := value }
  | .operation value => { d with operation := value }
  | .operationList value => { d with operationList := value }

def Disk.writes (ws : List Write) : Disk := ws.foldl Disk.write d

def lock (address op list : ℕ) : List Write :=
  [.operation op, .operationList list, .transaction address]

def unlock : List Write := [.transaction 0, .operation 0, .operationList 0]

structure Lists where
  heads : ℕ → ℕ
  tails : ℕ → ℕ

section

variable (m : Lists) (shared : Bool) (node list : ℕ)

def Lists.isHead (addr : ℕ) : Option ℕ :=
  (List.range kLastElement).find? fun i => addr = m.heads i

def Lists.isTail (addr : ℕ) : Option ℕ :=
  (List.range kLastElement).find? fun i => addr = m.tails i

def sanityCheck (m : Lists) (address : ℕ) (data : RankingsNode) (fromList : Bool) : Bool :=
  if (data.next = 0 ∧ data.prev ≠ 0) ∨ (data.next ≠ 0 ∧ data.prev = 0) then false
  else if data.next = 0 ∧ data.prev = 0 ∧ fromList then false
  else if address = data.prev ∧ (m.isHead data.prev).isNone then false
  else if address = data.next ∧ (m.isTail data.next).isNone then false
  else if data.next = 0 ∧ data.prev = 0 then true
  else
    Addr.sanityCheck data.next && Addr.fileType data.next = Addr.rankings &&
      Addr.sanityCheck data.prev && Addr.fileType data.prev = Addr.rankings

def getRanking (address : ℕ) : Option RankingsNode :=
  if Addr.isInitialized address && sanityCheck m address (d.nodes address) true then
    some (d.nodes address)
  else none

/-- The list to remove the node from, or the writes of a failed check. -/
def checkLinks (nodeAddr prevAddr nextAddr : ℕ) (prev next : RankingsNode)
    (list : ℕ) : Except (List Write) ℕ :=
  if prev.next = nodeAddr ∧ next.prev = nodeAddr then .ok list
  else if nodeAddr ≠ prevAddr ∧ nodeAddr ≠ nextAddr ∧ prev.next = nextAddr ∧
      next.prev = prevAddr then
    -- The list is actually ok, node is wrong.
    .error [.node nodeAddr ⟨0, 0⟩]
  else if prev.next = nodeAddr ∨ next.prev = nodeAddr then
    match if prev.next ≠ nodeAddr then m.isHead nodeAddr else none with
    | some i => .ok i
    | none =>
      match if next.prev ≠ nodeAddr then m.isTail nodeAddr else none with
      | some i => .ok i
      | none => .error []
  else .error []

/-- The writes of `Insert` under its lock, once the head has been checked. -/
def insertWrites : List Write :=
  let myHead := m.heads list
  let myTail := m.tails list
  let alone : Bool := !Addr.isInitialized myTail || myTail = node
  (if Addr.isInitialized myHead then [.node myHead { d.nodes myHead with prev := node }] else []) ++
  (if alone then [.tail list node] else []) ++
  [.node node ⟨node, if alone then node else myHead⟩, .head list node]

/-- The head of the list, if there is one, can be read and has the links of a head, or of one
in front of which the node was about to be inserted. -/
def headIsValid : Bool :=
  let myHead := m.heads list
  if Addr.isInitialized myHead then
    match getRanking d m myHead with
    | none => false
    | some head => head.prev = myHead || head.prev = node
  else true

def insert : List Write :=
  lock node kInsert list ++
  (if headIsValid d m node list then insertWrites d m node list else []) ++
  unlock

/-- The part of `Remove` for a node at an end of the list: the new head or tail, and the blocks
of its neighbours. -/
def removeEnds (node list prevAddr nextAddr : ℕ) (prev next : RankingsNode) :
    List Write × RankingsNode × RankingsNode :=
  let myHead := m.heads list
  let myTail := m.tails list
  if node = myHead ∨ node = myTail then
    if myHead = myTail then ([.head list 0, .tail list 0], prev, next)
    else if node = myHead then ([.head list nextAddr], prev, { next with prev := nextAddr })
    else
      let prev := { prev with next := prevAddr }
      -- Store the new tail to make sure we can undo the operation if we crash.
      ([.tail list prevAddr, .node prevAddr prev], prev, next)
  else ([], prev, next)

/-- The writes of `Remove` under its lock.  The blocks of `next` and `prev` are `node` itself at
the ends of the list; they share its data if the entry is open, and are copies otherwise. -/
def removeWrites : List Write :=
  let nextAddr := (d.nodes node).next
  let prevAddr := (d.nodes node).prev
  let (first, prev, next) := removeEnds m node list prevAddr nextAddr
    { d.nodes prevAddr with next := nextAddr } { d.nodes nextAddr with prev := prevAddr }
  -- Nodes out of the list can be identified by invalid pointers.
  first ++
  [.node nextAddr (if shared ∧ nextAddr = node then ⟨0, 0⟩ else next),
    .node prevAddr (if shared ∧ prevAddr = node then ⟨0, 0⟩ else prev),
    .node node ⟨0, 0⟩]

def remove : List Write :=
  let nextAddr := (d.nodes node).next
  let prevAddr := (d.nodes node).prev
  if !Addr.isInitialized nextAddr || Addr.isSeparateFile nextAddr ||
      !Addr.isInitialized prevAddr || Addr.isSeparateFile prevAddr then []
  else
    match getRanking d m nextAddr, getRanking d m prevAddr with
    | some next, some prev =>
      match checkLinks m node prevAddr nextAddr prev next list with
      | .error ws => ws
      | .ok list => lock node kRemove list ++ removeWrites d m shared node list ++ unlock
    | _, _ => []

/-- The data of the node that `FinishInsert` sets is set again by `Insert`. -/
def finishInsert (node : ℕ) : List Write :=
  [.transaction 0, .operation 0] ++
  (if m.heads d.operationList ≠ node then insert d m node d.operationList else [])

def revertEnds (node list prevAddr nextAddr : ℕ) (prev next : RankingsNode) :
    List Write × RankingsNode × RankingsNode :=
  if !Addr.isInitialized (m.heads list) || !Addr.isInitialized (m.tails list) then
    ([.head list node, .tail list node], prev, next)
  else if m.heads list = nextAddr then ([.head list node], { prev with next := nextAddr }, next)
  else if m.tails list = prevAddr then ([.tail list node], prev, { next with prev := prevAddr })
  else ([], prev, next)

def revertRemove (node : ℕ) : List Write :=
  let nextAddr := (d.nodes node).next
  let prevAddr := (d.nodes node).prev
  if !Addr.isInitialized nextAddr || !Addr.isInitialized prevAddr then
    -- The operation actually finished. Nothing to do.
    [.transaction 0]
  else if Addr.isSeparateFile nextAddr || Addr.isSeparateFile prevAddr then [.transaction 0]
  else
    let prev := d.nodes prevAddr
    let next := d.nodes nextAddr
    let prev := if node ≠ prevAddr then { prev with next := node } else prev
    let next := if node ≠ nextAddr then { next with prev := node } else next
    let (first, prev, next) := revertEnds m node d.operationList prevAddr nextAddr prev next
    first ++ [.node nextAddr next, .node prevAddr prev, .transaction 0, .operation 0]

def completeTransaction : List Write :=
  let node := d.transaction
  if !Addr.isInitialized node || Addr.isSeparateFile node then []
  else
    .node node (d.nodes node) ::
    (if d.operation = kInsert then finishInsert d m node
      else if d.operation = kRemove then revertRemove d m node
      else [])

end

def init : Disk :=
  if d.transaction ≠ 0 then d.writes (completeTransaction d ⟨d.heads, d.tails⟩) else d

end ChromiumBase.Rankings
