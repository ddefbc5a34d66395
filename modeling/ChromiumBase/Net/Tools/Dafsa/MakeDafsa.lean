import ChromiumBase.Lib.WordGraph
import Mathlib.Data.List.Sort

/-!
# The DAFSA compiler

The passes of `make_dafsa.py`.  A word list becomes a deterministic acyclic finite state
automaton, and the automaton becomes bytes that `LookupStringInFixedSet` walks.

The script compares nodes by identity (`id(node)`).  Here a node is its index in the list of
nodes that a pass has made, so every pass reads one list and makes another, and a `dict` over
identities is a function on indices.  The recursions of the script go down an acyclic graph;
they carry a depth that is larger than the number of nodes of the graph.
-/

open Function

namespace ChromiumBase.MakeDafsa

open WordGraph

/-- What the script raises.  The two halves of `assert distance > 0 and distance < (1 << 21)`
are kept apart, since only the second one depends on the size of the input. -/
inductive Failure where
  | emptyWordList
  | notPrintable
  | indexError
  | keyError
  | assertionError
  | linkTooLong
  deriving DecidableEq, Repr

/-- A DAFSA is the list of the children of its source node; `graph` holds the nodes. -/
structure Dafsa where
  graph : Graph ℕ
  source : List (Option ℕ)
  deriving DecidableEq, Repr

/-- One node for each character.  The last character is the digit of the return value. -/
def toNodes (graph : Graph ℕ) : List ℕ → Except Failure (Graph ℕ × ℕ)
  | [] => .error .indexError
  | c :: word =>
    if 0x1F < c ∧ c < 0x80 then
      if word = [] then .ok (graph ++ [⟨[c &&& 0x0F], [none]⟩], graph.length)
      else do
        let (graph, child) ← toNodes graph word
        .ok (graph ++ [⟨[c], [some child]⟩], graph.length)
    else .error .notPrintable

def toDafsaFrom (d : Dafsa) : List (List ℕ) → Except Failure Dafsa
  | [] => .ok d
  | word :: words => do
    let (graph, node) ← toNodes d.graph word
    toDafsaFrom ⟨graph, d.source ++ [some node]⟩ words

def toDafsa (words : List (List ℕ)) : Except Failure Dafsa :=
  if words = [] then .error .emptyWordList else toDafsaFrom ⟨[], []⟩ words

def toWords (g : Graph ℕ) : ℕ → Option ℕ → List (List ℕ)
  | _, none => [[]]
  | 0, some _ => []
  | n + 1, some i => (g.succ i).flatMap fun child => (toWords g n child).map (g.label i ++ ·)

/-- The new nodes, the dictionary from old nodes to new ones, and the new source. -/
structure Reversal where
  graph : Graph ℕ
  nodemap : ℕ → Option ℕ
  sink : List (Option ℕ)

def dfs (g : Graph ℕ) : ℕ → Option ℕ → Option ℕ → Reversal → Reversal
  | _, none, parent, r => { r with sink := r.sink ++ [parent] }
  | 0, some _, _, r => r
  | n + 1, some i, parent, r =>
    match r.nodemap i with
    | none =>
      let node := r.graph.length
      (g.succ i).foldl (fun r child => dfs g n child (some node) r)
        { r with
          graph := r.graph ++ [⟨(g.label i).reverse, [parent]⟩]
          nodemap := update r.nodemap i (some node) }
    | some node =>
      { r with
        graph := r.graph.modify node fun n => { n with children := n.children ++ [parent] } }

def reverse (d : Dafsa) : Dafsa :=
  let r := d.source.foldl (fun r node => dfs d.graph (d.graph.length + 1) node none r)
    ⟨[], fun _ => none, []⟩
  ⟨r.graph, r.sink⟩

/-- What composes along a list and holds of the single steps holds of `mapM`. -/
theorem run_mapM {σ β γ : Type} {f : β → StateM σ γ} {Inv : σ → Prop}
    (Step : σ → σ → List β → List γ → Prop) (inv : ∀ {s s' l bs}, Step s s' l bs → Inv s')
    (nil : ∀ {s}, Inv s → Step s s [] [])
    (cons : ∀ {s s₁ s₂ a l b bs}, Step s s₁ [a] [b] → Step s₁ s₂ l bs →
      Step s s₂ (a :: l) (b :: bs)) {l : List β}
    (step : ∀ a ∈ l, ∀ s, Inv s → ∃ b s', (f a).run s = (b, s') ∧ Step s s' [a] [b]) {s : σ}
    (h : Inv s) : ∃ bs s', (l.mapM f).run s = (bs, s') ∧ Step s s' l bs := by
  induction l generalizing s with
  | nil => exact ⟨[], s, rfl, nil h⟩
  | cons a l ih =>
    obtain ⟨b, s₁, hb, hs⟩ := step a List.mem_cons_self s h
    obtain ⟨bs, s₂, hbs, hst⟩ := ih (fun r hr => step r (List.mem_cons_of_mem a hr)) (inv hs)
    refine ⟨b :: bs, s₂, ?_, cons hs hst⟩
    rw [List.mapM_cons, StateT.run_bind, hb]
    change (l.mapM f >>= fun bs => pure (b :: bs)).run s₁ = (b :: bs, s₂)
    rw [StateT.run_bind, hbs]
    rfl

def sameWords (a b : List (List ℕ)) : Bool :=
  a.all (b.contains ·) && b.all (a.contains ·)

structure Suffixes where
  graph : Graph ℕ
  nodemap : List (List (List ℕ) × Option ℕ)

def Suffixes.find (s : Suffixes) (suffixes : List (List ℕ)) : Option (Option ℕ) :=
  (s.nodemap.find? fun entry => sameWords entry.1 suffixes).map Prod.snd

def Suffixes.add (s : Suffixes) (suffixes : List (List ℕ)) (node : Node ℕ) : Suffixes :=
  ⟨s.graph ++ [node], s.nodemap ++ [(suffixes, some s.graph.length)]⟩

def joinSuffix (g : Graph ℕ) : ℕ → Option ℕ → StateM Suffixes (Option ℕ)
  | 0, _ => pure none
  | n + 1, ref => do
    let suffixes := toWords g (g.length + 1) ref
    match (← get).find suffixes, ref with
    | some node, _ => pure node
    | none, none => pure none
    | none, some i =>
      let children ← (g.succ i).mapM (joinSuffix g n)
      let s ← get
      set (s.add suffixes ⟨g.label i, children⟩)
      pure (some s.graph.length)

def joinSuffixes (d : Dafsa) : Dafsa :=
  let (source, s) := (d.source.mapM (joinSuffix d.graph (d.graph.length + 2))).run
    ⟨[], [([[]], none)]⟩
  ⟨s.graph, source⟩

def countParents (g : Graph ℕ) : ℕ → Option ℕ → (Option ℕ → Option ℕ) → Option ℕ → Option ℕ
  | 0, _, parentcount => parentcount
  | n + 1, ref, parentcount =>
    match parentcount ref, ref with
    | some count, _ => update parentcount ref (some (count + 1))
    | none, none => parentcount
    | none, some i =>
      (g.succ i).foldl (fun parentcount child => countParents g n child parentcount)
        (update parentcount ref (some 1))

structure Labels where
  graph : Graph ℕ
  nodemap : ℕ → Option ℕ

def joinedNode (g : Graph ℕ) (parentcount : Option ℕ → Option ℕ) (new : Graph ℕ) (i : ℕ)
    (children : List (Option ℕ)) : Node ℕ :=
  match g.succ i, children with
  | [child], [some node] =>
    if parentcount child = some 1 then ⟨g.label i ++ new.label node, new.succ node⟩
    else ⟨g.label i, children⟩
  | _, _ => ⟨g.label i, children⟩

def joinLabel (g : Graph ℕ) (parentcount : Option ℕ → Option ℕ) :
    ℕ → Option ℕ → StateM Labels (Option ℕ)
  | _, none => pure none
  | 0, some _ => pure none
  | n + 1, some i => do
    match (← get).nodemap i with
    | some node => pure (some node)
    | none =>
      let children ← (g.succ i).mapM (joinLabel g parentcount n)
      let s ← get
      set (Labels.mk (s.graph ++ [joinedNode g parentcount s.graph i children])
        (update s.nodemap i (some s.graph.length)))
      pure (some s.graph.length)

def joinLabels (d : Dafsa) : Dafsa :=
  let n := d.graph.length + 1
  let parentcount := d.source.foldl
    (fun parentcount node => countParents d.graph n node parentcount)
    (update (fun _ => none) none (some 2))
  let (source, s) := (d.source.mapM (joinLabel d.graph parentcount n)).run ⟨[], fun _ => none⟩
  ⟨s.graph, source⟩

def countIncoming (g : Graph ℕ) : ℕ → Option ℕ → (ℕ → Option ℤ) → ℕ → Option ℤ
  | _, none, incoming => incoming
  | 0, some _, incoming => incoming
  | n + 1, some i, incoming =>
    match incoming i with
    | none =>
      (g.succ i).foldl (fun incoming child => countIncoming g n child incoming)
        (update incoming i (some 1))
    | some count => update incoming i (some (count + 1))

def decrement (incoming : ℕ → Option ℤ) (i : ℕ) : ℕ → Option ℤ :=
  update incoming i ((incoming i).map (· - 1))

/-- One reference of a node that has been taken from the waiting list. -/
def release (w : List ℕ × (ℕ → Option ℤ)) : Option ℕ → List ℕ × (ℕ → Option ℤ)
  | none => w
  | some child =>
    let incoming := decrement w.2 child
    (if incoming child = some 0 then child :: w.1 else w.1, incoming)

/-- The loop over the waiting list; the last element of the list of the script is the head
here. -/
def topSortLoop (g : Graph ℕ) :
    ℕ → List ℕ × (ℕ → Option ℤ) → List ℕ → Except Failure (List ℕ)
  | 0, _, nodes => .ok nodes
  | _ + 1, ([], _), nodes => .ok nodes
  | n + 1, (node :: waiting, incoming), nodes =>
    if incoming node = some 0 then
      topSortLoop g n ((g.succ node).foldl release (waiting, incoming)) (nodes ++ [node])
    else .error .assertionError

def topSort (d : Dafsa) : Except Failure (List ℕ) :=
  let n := d.graph.length + 1
  let source := d.source.filterMap id
  let incoming := d.source.foldl (fun incoming node => countIncoming d.graph n node incoming)
    fun _ => none
  let incoming := source.foldl decrement incoming
  let waiting := source.filter fun node => incoming node = some 0
  topSortLoop d.graph n (waiting.reverse, incoming) []

def encodeDistance (distance : ℕ) : List ℕ :=
  if distance < 1 <<< 6 then [distance]
  else if distance < 1 <<< 13 then [0x40 ||| distance >>> 8, distance &&& 0xFF]
  else [0x60 ||| distance >>> 16, (distance >>> 8) &&& 0xFF, distance &&& 0xFF]

/-- The links to the children at the given offsets.  The distance of the first link is
relative to `offset`, that of every other link to the child before. -/
def encodeDistances : ℕ → List ℕ → Except Failure (List (List ℕ))
  | _, [] => .ok []
  | offset, child :: children =>
    if child < offset then
      if offset - child < 1 <<< 21 then do
        .ok (encodeDistance (offset - child) :: (← encodeDistances child children))
      else .error .linkTooLong
    else .error .assertionError

/-- Encodes the links again with the length the last attempt had, until that was the length
guessed. -/
def guessLinks (children : List ℕ) (current : ℕ) : ℕ → ℕ → Except Failure (List (List ℕ))
  | 0, _ => .error .assertionError
  | n + 1, guess => do
    let buf ← encodeDistances (current + guess) children
    if buf.flatten.length = guess then .ok buf
    else guessLinks children current n buf.flatten.length

def markFirst : List ℕ → List ℕ
  | [] => []
  | b :: bytes => (b ||| 1 <<< 7) :: bytes

def markLast (buf : List (List ℕ)) : List ℕ :=
  (buf.dropLast ++ (buf.getLast?.map markFirst).toList).flatten

def childOffsets (offsets : ℕ → Option ℕ) : List (Option ℕ) → Except Failure (List ℕ)
  | [] => .ok []
  | child :: children => do
    match child.bind offsets with
    | none => .error .keyError
    | some offset => .ok (offset :: (← childOffsets offsets children))

def encodeLinks (children : List (Option ℕ)) (offsets : ℕ → Option ℕ) (current : ℕ) :
    Except Failure (List ℕ) :=
  match children with
  | [] => .error .indexError
  | none :: rest => if rest = [] then .ok [] else .error .assertionError
  | some _ :: _ => do
    let guess := 3 * children.length
    let sorted := (← childOffsets offsets children).insertionSort (· ≥ ·)
    let buf ← guessLinks sorted current (guess + 1) guess
    .ok (markLast buf).reverse

def encodePrefix (label : List ℕ) : Except Failure (List ℕ) :=
  if label = [] then .error .assertionError else .ok label.reverse

def encodeLabel (label : List ℕ) : Except Failure (List ℕ) := do
  .ok (markFirst (← encodePrefix label))

/-- The bytes written so far, last byte of the result first, and for each encoded node the
length of the output when it was complete. -/
structure Output where
  bytes : List ℕ
  offsets : ℕ → Option ℕ

/-- Whether the only child of a node was the last one encoded, so that the label of the node
runs on into the label of the child. -/
def fallsThrough (o : Output) : List (Option ℕ) → Except Failure Bool
  | [some child] =>
    match o.offsets child with
    | none => .error .keyError
    | some offset => .ok (offset = o.bytes.length)
  | _ => .ok false

def nodeBytes (g : Graph ℕ) (o : Output) (i : ℕ) : Except Failure (List ℕ) := do
  if ← fallsThrough o (g.succ i) then encodePrefix (g.label i)
  else
    let links ← encodeLinks (g.succ i) o.offsets o.bytes.length
    .ok (links ++ (← encodeLabel (g.label i)))

def encodeNode (g : Graph ℕ) (o : Output) (i : ℕ) : Except Failure Output := do
  let bytes ← nodeBytes g o i
  .ok ⟨o.bytes ++ bytes, update o.offsets i (some (o.bytes ++ bytes).length)⟩

def encode (d : Dafsa) : Except Failure (List ℕ) := do
  let o ← (← topSort d).reverse.foldlM (encodeNode d.graph) ⟨[], fun _ => none⟩
  let links ← encodeLinks d.source o.offsets o.bytes.length
  .ok (o.bytes ++ links).reverse

def minimize (d : Dafsa) : Dafsa :=
  joinLabels (joinSuffixes (reverse (joinSuffixes (reverse d))))

def wordsToCxx (words : List (List ℕ)) : Except Failure (List ℕ) := do
  let d ← toDafsa words
  encode (minimize d)

-- The two examples of the script: `aa` with the value 1 and `a` with the value 2, and `aa`
-- with 1, `bbb` with 2 and `baa` with 1.
example : wordsToCxx [[0x61, 0x61, 0x31], [0x61, 0x32]] =
    .ok [0x81, 0xE1, 0x02, 0x81, 0x82, 0x61, 0x81] := by
  decide +kernel

example : wordsToCxx
      [[0x61, 0x61, 0x31], [0x62, 0x62, 0x62, 0x32], [0x62, 0x61, 0x61, 0x31]] =
    .ok [0x02, 0x83, 0xE2, 0x02, 0x83, 0x61, 0x61, 0x81, 0x62, 0x62, 0x82] := by
  decide +kernel

end ChromiumBase.MakeDafsa
