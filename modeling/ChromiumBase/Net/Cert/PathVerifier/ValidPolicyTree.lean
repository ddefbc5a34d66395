import ChromiumBase.Lib.SortedSet
import ChromiumBase.Net.Cert.PathVerifier.Certificate

/-!
# The last level of the valid policy tree

The verifier keeps the nodes of the current depth only.  A node remembers the policy of the
caller's domain that it descends from, its own policy, and the policies expected in the
next certificate.  The tree starts with one node for each policy of the user.

A level is a vector, and the order of its nodes is the order in which later steps go
through them.
-/

open List

namespace ChromiumBase.PathVerifier

def anyPolicy : Input := [0x55, 0x1d, 0x20, 0x00]

namespace ValidPolicyTree

structure Node where
  rootPolicy : Input
  validPolicy : Input
  expectedPolicySet : SortedSet Input
  deriving DecidableEq

abbrev Level := List Node

def init (userInitialPolicySet : SortedSet Input) : Level :=
  userInitialPolicySet.elems.map fun policyOid => ⟨policyOid, policyOid, .singleton policyOid⟩

/-- The child of a node.  Its root policy is the first policy other than anyPolicy on the way
down, or anyPolicy as long as there is none. -/
def Node.childWithExpectedPolicySet (parent : Node) (policyOid : Input)
    (expectedPolicySet : SortedSet Input) : Node where
  rootPolicy := if parent.rootPolicy = anyPolicy then policyOid else parent.rootPolicy
  validPolicy := policyOid
  expectedPolicySet := expectedPolicySet

def Node.child (parent : Node) (policyOid : Input) : Node :=
  parent.childWithExpectedPolicySet policyOid (.singleton policyOid)

def findAnyPolicyNode (level : Level) : Option Node :=
  level.find? fun node => node.validPolicy = anyPolicy

/-- The loop of the deletion over the nodes that are left: a deleted node is replaced by the
last of them. -/
def deleteLoop (validPolicy : Input) : ℕ → Level → Level
  | 0, _ => []
  | _ + 1, [] => []
  | fuel + 1, node :: rest =>
    if node.validPolicy = validPolicy then
      match rest.getLast? with
      | none => []
      | some last => deleteLoop validPolicy fuel (last :: rest.dropLast)
    else node :: deleteLoop validPolicy fuel rest

def deleteNodesMatchingValidPolicy (validPolicy : Input) (level : Level) : Level :=
  deleteLoop validPolicy level.length level

/-- The policies of the caller's domain that the level stands for.  A result with anyPolicy
is simplified to anyPolicy alone. -/
def getValidRootPolicySet (level : Level) : SortedSet Input :=
  let policySet := SortedSet.ofList (level.map Node.rootPolicy)
  if 1 < policySet.elems.length ∧ anyPolicy ∈ policySet then .singleton anyPolicy
  else policySet

/-- The nodes below which a policy of the certificate is put: those that expect it, and else
the anyPolicy node. -/
def policyParents (previousLevel : Level) (policyOid : Input) : List Node :=
  match previousLevel.filter fun node => policyOid ∈ node.expectedPolicySet with
  | [] => (findAnyPolicyNode previousLevel).toList
  | nodes => nodes

def addPolicy (previousLevel current : Level) (policyOid : Input) : Level :=
  if policyOid = anyPolicy then current
  else current ++ (policyParents previousLevel policyOid).map (·.child policyOid)

/-- A node gets a child for an expected policy, unless the policy has a node already.  The
policies that have one are collected on the way. -/
def addExpected (acc : SortedSet Input × Level) (expected : Node × Input) :
    SortedSet Input × Level :=
  if expected.2 ∈ acc.1 then acc
  else (acc.1.insert expected.2, acc.2 ++ [expected.1.child expected.2])

def expectedPolicies (level : Level) : List (Node × Input) :=
  level.flatMap fun node => node.expectedPolicySet.elems.map fun policy => (node, policy)

/-- The anyPolicy of a certificate gives a child to every expected policy that has none on
the current level yet. -/
def expandAnyPolicy (previousLevel current : Level) : Level :=
  ((expectedPolicies previousLevel).foldl addExpected
    (SortedSet.ofList (current.map Node.validPolicy), current)).2

def nextLevel (previousLevel : Level) (policyOids : List Input) (anyPolicyApplies : Bool) :
    Level :=
  let current := policyOids.foldl (addPolicy previousLevel) []
  if policyOids.contains anyPolicy && anyPolicyApplies then
    expandAnyPolicy previousLevel current
  else current

def subjectDomainPolicies (mappings : List ParsedPolicyMapping) (issuerDomainPolicy : Input) :
    SortedSet Input :=
  .ofList ((mappings.filter fun mapping =>
    mapping.issuerDomainPolicy = issuerDomainPolicy).map (·.subjectDomainPolicy))

/-- One group of mappings: the nodes with the issuer domain policy expect the subject domain
policies instead.  If there is none, the anyPolicy node gets a child for them. -/
def applyMapping (anyPolicyNode : Option Node) (level : Level) (issuerDomainPolicy : Input)
    (subjectPolicies : SortedSet Input) : Level :=
  let updated := level.map fun node =>
    if node.validPolicy = issuerDomainPolicy then
      { node with expectedPolicySet := subjectPolicies }
    else node
  match anyPolicyNode with
  | none => updated
  | some anyNode =>
    if level.any fun node => node.validPolicy = issuerDomainPolicy then updated
    else
      updated ++ [anyNode.childWithExpectedPolicySet issuerDomainPolicy subjectPolicies]

/-- The mappings are grouped by issuer domain policy and applied in the order of these.  The
pointer to the anyPolicy node may dangle once a node has been added: `stale` is the root policy
that it then reads from a level of a given size. -/
def applyMappings (stale : ℕ → Input) (mappings : List ParsedPolicyMapping) (level : Level) :
    Level :=
  let issuers := SortedSet.ofList (mappings.map (·.issuerDomainPolicy))
  issuers.elems.foldl (fun current issuer =>
    let anyPolicyNode := (findAnyPolicyNode level).map fun node =>
      if current.length = level.length then node
      else { node with rootPolicy := stale current.length }
    applyMapping anyPolicyNode current issuer (subjectDomainPolicies mappings issuer)) level

end ValidPolicyTree

end ChromiumBase.PathVerifier
