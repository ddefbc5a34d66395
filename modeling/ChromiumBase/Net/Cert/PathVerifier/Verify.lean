import ChromiumBase.Net.Cert.PathVerifier.ValidPolicyTree

/-!
# Verification of a certificate chain

`verifyCertificateChain` goes through a chain from the root certificate, its last one, to the
target, its first one.  The state between two certificates holds what is expected of the
next: the key that must have signed it, the name of its issuer, the name constraints and the
path length that are left, and the policy variables.

Errors are collected for each certificate.  Verification goes on after an error, except
after one that makes the signatures below meaningless.
-/

namespace ChromiumBase.PathVerifier

open ValidPolicyTree

variable {PublicKey NameConstraints GeneralNames : Type*}

structure State (PublicKey NameConstraints : Type*) where
  validPolicyTree : Level
  nameConstraintsList : List NameConstraints
  explicitPolicy : ℕ
  inhibitAnyPolicy : ℕ
  policyMapping : ℕ
  workingPublicKey : Option PublicKey
  workingNormalizedIssuerName : Input
  maxPathLength : ℕ

structure Settings where
  time : GeneralizedTime
  requiredKeyPurpose : KeyPurpose
  initialExplicitPolicy : Bool
  userInitialPolicySet : SortedSet Input
  initialPolicyMappingInhibit : Bool
  initialAnyPolicyInhibit : Bool

section Processing

variable (env : Environment PublicKey NameConstraints GeneralNames) (settings : Settings)
  (state : State PublicKey NameConstraints) (cert : ParsedCertificate NameConstraints GeneralNames)

/-- Steps (d) to (f) of the basic processing. -/
def verifyPolicies (isTargetCert : Bool) : State PublicKey NameConstraints × CertErrors :=
  let level :=
    match cert.policyOids with
    | none => []
    | some policyOids =>
      if state.validPolicyTree = [] then []
      else
        nextLevel state.validPolicyTree policyOids
          (0 < state.inhibitAnyPolicy || (!isTargetCert && isSelfIssued cert))
  ({ state with validPolicyTree := level },
    addErrorIf (!(0 < state.explicitPolicy || level ≠ [])) .noValidPolicy)

/-- Steps (a) and (b) of the preparation for the next certificate. -/
def verifyPolicyMappings : State PublicKey NameConstraints × CertErrors :=
  match cert.policyMappings with
  | none => (state, [])
  | some mappings =>
    let mapsAny := mappings.filter fun mapping =>
      mapping.issuerDomainPolicy = anyPolicy || mapping.subjectDomainPolicy = anyPolicy
    let level := if mapsAny = [] then state.validPolicyTree else []
    let level :=
      if 0 < state.policyMapping then applyMappings env.staleRootPolicy mappings level
      else mappings.foldl (fun level mapping =>
        deleteNodesMatchingValidPolicy mapping.issuerDomainPolicy level) level
    ({ state with validPolicyTree := level },
      mapsAny.flatMap fun _ => addError .policyMappingAnyPolicy)

def parseAndCheckPublicKey (spki : Input) : Option PublicKey × CertErrors :=
  match env.parsePublicKey spki with
  | none => (none, addError .failedParsingSpki)
  | some key =>
    let acceptable := env.isPublicKeyAcceptable key
    (some key, delegateErrors acceptable.2 ++ addErrorIf (!acceptable.1) .unacceptablePublicKey)

def nameConstraintsErrors : Option NameConstraintsFailure → CertErrors
  | none => []
  | some .tooManyChecks => addError .tooManyNameConstraintChecks
  | some .notPermitted => addError .notPermittedByNameConstraints

/-- The checks that make a further look at the chain pointless when they fail, and whether
one of them did: the algorithms of the signature and the signature itself. -/
def verifySignature : CertErrors × Bool :=
  let algorithmsMatch := verifySignatureAlgorithmsMatch env cert
  let acceptable := env.isSignatureAlgorithmAcceptable cert.signatureAlgorithm
  let signed := state.workingPublicKey.all fun key =>
    env.verifySignedData cert.signatureAlgorithm cert.tbsCertificateTlv cert.signatureValue key
  (algorithmsMatch.2
      ++ (delegateErrors acceptable.2
        ++ addErrorIf (!acceptable.1) .unacceptableSignatureAlgorithm)
      ++ addErrorIf (!signed) .verifySignedDataFailed,
    !algorithmsMatch.1 || !acceptable.1 || !signed)

/-- Basic certificate processing.  The last component says that the chain is not looked at
any further. -/
def basicCertificateProcessing (isTargetCert : Bool) :
    State PublicKey NameConstraints × CertErrors × Bool :=
  let signature := verifySignature env state cert
  if signature.2 then (state, signature.1, true)
  else
    let names :=
      if !isSelfIssued cert || isTargetCert then
        state.nameConstraintsList.flatMap fun constraints =>
          nameConstraintsErrors
            (env.isPermittedCert constraints cert.normalizedSubject cert.subjectAltNames)
      else []
    let policies := verifyPolicies state cert isTargetCert
    (policies.1, signature.1
        ++ verifyTimeValidity cert settings.time
        ++ addErrorIf (cert.normalizedIssuer ≠ state.workingNormalizedIssuerName)
          .subjectDoesNotMatchIssuer
        ++ names
        ++ policies.2
        ++ verifyExtendedKeyUsage cert settings.requiredKeyPurpose,
      false)

def limit (bound : Option ℕ) (counter : ℕ) : ℕ :=
  match bound with
  | none => counter
  | some value => if value < counter then value else counter

/-- Steps (h) to (j): certificates that are not self-issued count down the policy variables,
and the extensions lower them. -/
def updatePolicyCounters : State PublicKey NameConstraints :=
  let count (counter : ℕ) := if isSelfIssued cert then counter else counter - 1
  { state with
    explicitPolicy :=
      limit (cert.policyConstraints.bind (·.requireExplicitPolicy)) (count state.explicitPolicy)
    policyMapping :=
      limit (cert.policyConstraints.bind (·.inhibitPolicyMapping)) (count state.policyMapping)
    inhibitAnyPolicy := limit cert.inhibitAnyPolicy (count state.inhibitAnyPolicy) }

/-- Steps (k) to (m): an intermediate must be a CA, and it must fit into the path length. -/
def verifyBasicConstraints : State PublicKey NameConstraints × CertErrors :=
  let caErrors :=
    match cert.basicConstraints with
    | none => addError .missingBasicConstraints
    | some constraints => addErrorIf (!constraints.isCa) .basicConstraintsIndicatesNotCa
  let maxPathLength :=
    if isSelfIssued cert then state.maxPathLength else state.maxPathLength - 1
  ({ state with
      maxPathLength := limit (cert.basicConstraints.bind (·.pathLen)) maxPathLength },
    caErrors
      ++ addErrorIf (!isSelfIssued cert && state.maxPathLength = 0) .maxPathLengthViolated)

def prepareForNextCertificate : State PublicKey NameConstraints × CertErrors :=
  let mapped := verifyPolicyMappings env state cert
  let key := parseAndCheckPublicKey env cert.spkiTlv
  let state := { mapped.1 with
    workingNormalizedIssuerName := cert.normalizedSubject
    workingPublicKey := key.1
    nameConstraintsList := mapped.1.nameConstraintsList ++ cert.nameConstraints.toList }
  let constrained := verifyBasicConstraints (updatePolicyCounters state cert) cert
  (constrained.1, mapped.2 ++ key.2 ++ constrained.2
      ++ addErrorIf (cert.keyUsage.any fun usage => !usage.assertsBit keyUsageBitKeyCertSign)
        .keyCertSignBitNotSet
      ++ verifyNoUnconsumedCriticalExtensions env cert)

def wrapUp : State PublicKey NameConstraints × CertErrors :=
  let explicitPolicy :=
    if cert.policyConstraints.bind (·.requireExplicitPolicy) = some 0 then 0
    else state.explicitPolicy - 1
  ({ state with explicitPolicy := explicitPolicy }, verifyNoUnconsumedCriticalExtensions env cert
      ++ addErrorIf (!(0 < explicitPolicy || state.validPolicyTree ≠ [])) .noValidPolicy
      ++ verifyTargetCertHasConsistentCaBits cert
      ++ (parseAndCheckPublicKey env cert.spkiTlv).2)

def applyTrustAnchorConstraints : State PublicKey NameConstraints × CertErrors :=
  ({ state with
      nameConstraintsList := state.nameConstraintsList ++ cert.nameConstraints.toList
      maxPathLength := (cert.basicConstraints.bind (·.pathLen)).getD state.maxPathLength },
    verifyExtendedKeyUsage cert settings.requiredKeyPurpose
      ++ verifyNoUnconsumedCriticalExtensions env cert)

def processRootCertificate (trust : CertificateTrustType) :
    State PublicKey NameConstraints × CertErrors × Bool :=
  let proceed (anchor : State PublicKey NameConstraints × CertErrors) :=
    let key := parseAndCheckPublicKey env cert.spkiTlv
    ({ anchor.1 with
        workingPublicKey := key.1
        workingNormalizedIssuerName := cert.normalizedSubject }, anchor.2 ++ key.2, false)
  match trust with
  | .unspecified => (state, addError .certIsNotTrustAnchor, true)
  | .distrusted => (state, addError .distrustedByTrustStore, true)
  | .trustedAnchor => proceed (state, [])
  | .trustedAnchorWithConstraints =>
    proceed (applyTrustAnchorConstraints env settings state cert)

end Processing

/-- The certificates below the root, from the one it issued to the target: a bucket of errors
for each, and the last state if the loop came to its end. -/
def processIssued (env : Environment PublicKey NameConstraints GeneralNames)
    (settings : Settings) :
    State PublicKey NameConstraints → List (ParsedCertificate NameConstraints GeneralNames) →
      List CertErrors × Option (State PublicKey NameConstraints)
  | state, [] => ([], some state)
  | state, cert :: rest =>
    let basic := basicCertificateProcessing env settings state cert rest.isEmpty
    if basic.2.2 then (basic.2.1 :: rest.map fun _ => [], none)
    else
      let done :=
        if rest.isEmpty then wrapUp env basic.1 cert
        else prepareForNextCertificate env basic.1 cert
      let below := processIssued env settings done.1 rest
      ((basic.2.1 ++ done.2) :: below.1, below.2)

def initialState (settings : Settings) (n : ℕ) : State PublicKey NameConstraints where
  validPolicyTree := init settings.userInitialPolicySet
  nameConstraintsList := []
  explicitPolicy := if settings.initialExplicitPolicy then 0 else n + 1
  inhibitAnyPolicy := if settings.initialAnyPolicyInhibit then 0 else n + 1
  policyMapping := if settings.initialPolicyMappingInhibit then 0 else n + 1
  workingPublicKey := none
  workingNormalizedIssuerName := []
  maxPathLength := n

/-- The errors for each certificate, the target's first, and those for none of them. -/
structure CertPathErrors where
  certErrors : List CertErrors
  otherErrors : CertErrors

/-- What a verification leaves behind.  The policy set is not written when verification ends
early. -/
structure Result where
  errors : CertPathErrors
  userConstrainedPolicySet : Option (SortedSet Input)

def CertPathErrors.containsAnyErrorWithSeverity (errors : CertPathErrors)
    (severity : Severity) : Bool :=
  errors.certErrors.any (PathVerifier.containsAnyErrorWithSeverity · severity)
    || PathVerifier.containsAnyErrorWithSeverity errors.otherErrors severity

def CertPathErrors.containsHighSeverityErrors (errors : CertPathErrors) : Bool :=
  errors.containsAnyErrorWithSeverity .high

/-- The chain is given with the target first, and it is processed from the root. -/
def verifyCertificateChain (env : Environment PublicKey NameConstraints GeneralNames)
    (settings : Settings) (certs : List (ParsedCertificate NameConstraints GeneralNames))
    (lastCertTrust : CertificateTrustType) : Result :=
  match certs.reverse with
  | [] => ⟨⟨[], addError .chainIsEmpty⟩, none⟩
  | [_] => ⟨⟨[], addError .chainIsLength1⟩, none⟩
  | root :: rest =>
    let anchor := processRootCertificate env settings
      (initialState settings rest.length) root lastCertTrust
    if anchor.2.2 then ⟨⟨(anchor.2.1 :: rest.map fun _ => []).reverse, []⟩, none⟩
    else
      let issued := processIssued env settings anchor.1 rest
      ⟨⟨(anchor.2.1 :: issued.1).reverse, []⟩,
        issued.2.map fun state => getValidRootPolicySet state.validPolicyTree⟩

def plainCertificate (subject issuer : Input) (isCa : Bool) : ParsedCertificate Unit Unit where
  tbsCertificateTlv := []
  signatureAlgorithmTlv := []
  signatureValue := ⟨[]⟩
  tbsSignatureAlgorithmTlv := []
  validityNotBefore := ⟨2020, 1, 1, 0, 0, 0⟩
  validityNotAfter := ⟨2020, 12, 31, 23, 59, 59⟩
  spkiTlv := []
  signatureAlgorithm := ⟨.ecdsa, .sha256, none⟩
  normalizedSubject := subject
  normalizedIssuer := issuer
  basicConstraints := some ⟨isCa, none⟩
  keyUsage := none
  extendedKeyUsage := none
  subjectAltNames := none
  nameConstraints := none
  policyOids := none
  policyConstraints := none
  policyMappings := none
  inhibitAnyPolicy := none
  extensions := []

def lenientEnvironment (permitted : Input → Bool) : Environment Unit Unit Unit where
  isSignatureAlgorithmAcceptable := fun _ => (true, [])
  isPublicKeyAcceptable := fun _ => (true, [])
  parsePublicKey := fun _ => some ()
  verifySignedData := fun _ _ _ _ => true
  isEquivalent := fun _ _ => false
  parseCertificatePoliciesExtension := fun _ => true
  isPermittedCert := fun _ subject _ => if permitted subject then none else some .notPermitted
  staleRootPolicy := fun _ => []

def serverSettings : Settings where
  time := ⟨2020, 6, 30, 12, 0, 0⟩
  requiredKeyPurpose := .serverAuth
  initialExplicitPolicy := false
  userInitialPolicySet := .singleton anyPolicy
  initialPolicyMappingInhibit := false
  initialAnyPolicyInhibit := false

end ChromiumBase.PathVerifier
