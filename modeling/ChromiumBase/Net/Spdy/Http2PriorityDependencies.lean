import Mathlib.Data.List.Basic

/-!
# The priority dependencies of HTTP/2 streams

`Http2PriorityDependencies` turns the priorities of streams into dependencies: the streams are
kept in a list for each priority, and a stream is to depend on the one before it in the
concatenation of the lists.  An entry of a list is found from its stream by an iterator, which
is here the entry itself, as no two entries have the same stream.
-/

namespace ChromiumBase.Http2Priority

def kV3HighestPriority : ℕ := 0
def kV3LowestPriority : ℕ := 7

/-- The weight of a priority.  The source computes with `255.9f / 7.f`; no product is close
enough to an integer for the rounding to matter. -/
def spdy3PriorityToHttp2Weight (priority : ℕ) : ℕ :=
  2559 * (kV3LowestPriority - min priority kV3LowestPriority) / 70 + 1

structure DependencyUpdate where
  id : ℕ
  parentStreamId : ℕ
  weight : ℕ
  exclusive : Bool
deriving DecidableEq, Repr

structure Http2PriorityDependencies where
  idPriorityLists : ℕ → List (ℕ × ℕ)
  entryByStreamId : ℕ → Option (ℕ × ℕ)

namespace Http2PriorityDependencies

def new : Http2PriorityDependencies := ⟨fun _ => [], fun _ => none⟩

def priorityLowerBound (d : Http2PriorityDependencies) : ℕ → Option (ℕ × ℕ)
  | 0 => (d.idPriorityLists 0).getLast?
  | i + 1 =>
    match (d.idPriorityLists (i + 1)).getLast? with
    | some bound => some bound
    | none => d.priorityLowerBound i

variable (d : Http2PriorityDependencies)

/-- The stream just above the entry in the total order. -/
def parentOfStream (entry : ℕ × ℕ) : Option (ℕ × ℕ) :=
  match ((d.idPriorityLists entry.2).takeWhile (·.1 ≠ entry.1)).getLast? with
  | some parent => some parent
  | none =>
    -- the entry is at the head of its list
    if entry.2 = kV3HighestPriority then none else d.priorityLowerBound (entry.2 - 1)

def childOfStream (entry : ℕ × ℕ) : Option (ℕ × ℕ) :=
  match ((d.idPriorityLists entry.2).dropWhile (·.1 ≠ entry.1)).tail.head? with
  | some child => some child
  | none => (List.range' (entry.2 + 1) (kV3LowestPriority - entry.2)).findSome? fun i =>
    (d.idPriorityLists i).head?

def streamId (entry : Option (ℕ × ℕ)) : ℕ := (entry.map Prod.fst).getD 0

def pushBack (id priority : ℕ) : Http2PriorityDependencies where
  idPriorityLists := Function.update d.idPriorityLists priority
    (d.idPriorityLists priority ++ [(id, priority)])
  entryByStreamId := Function.update d.entryByStreamId id (some (id, priority))

def erase (entry : ℕ × ℕ) : Http2PriorityDependencies where
  idPriorityLists := Function.update d.idPriorityLists entry.2
    ((d.idPriorityLists entry.2).eraseP (·.1 = entry.1))
  entryByStreamId := d.entryByStreamId

/-- The dependency of the new stream, which is not set for a stream that is there already. -/
def onStreamCreation (id priority : ℕ) : Http2PriorityDependencies × Option DependencyUpdate :=
  if (d.entryByStreamId id).isSome then (d, none)
  else
    (d.pushBack id priority, some
      { id := id
        parentStreamId := streamId (d.priorityLowerBound priority)
        weight := spdy3PriorityToHttp2Weight priority
        exclusive := true })

def onStreamUpdate (id newPriority : ℕ) : Http2PriorityDependencies × List DependencyUpdate :=
  match d.entryByStreamId id with
  | none => (d, [])
  | some entry =>
    if entry.2 = newPriority then (d, [])
    else
      let oldParent := d.parentOfStream entry
      let bound := d.priorityLowerBound newPriority
      -- The lower bound may be the stream itself, which then does not change parents.
      let newParent := if bound.map Prod.fst = some id then oldParent else bound
      let updates :=
        if oldParent.map Prod.fst ≠ newParent.map Prod.fst then
          ((d.childOfStream entry).toList.map fun oldChild =>
            { id := oldChild.1
              parentStreamId := streamId oldParent
              weight := spdy3PriorityToHttp2Weight oldChild.2
              exclusive := true : DependencyUpdate }) ++
          [{ id := id
             parentStreamId := streamId newParent
             weight := spdy3PriorityToHttp2Weight newPriority
             exclusive := true }]
        else []
      ((d.erase entry).pushBack id newPriority, updates)

def onStreamDestruction (id : ℕ) : Http2PriorityDependencies :=
  match d.entryByStreamId id with
  | none => d
  | some entry =>
    { d.erase entry with entryByStreamId := Function.update d.entryByStreamId id none }

end Http2PriorityDependencies

end ChromiumBase.Http2Priority
