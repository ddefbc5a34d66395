import Mathlib.Data.List.Lex
import Mathlib.Data.Nat.Bitwise

/-!
# Parsed certificates and certificate errors

The fields of a parsed certificate that path verification reads, the errors it reports, and
the checks that look at one certificate alone: time, extended key usage, critical
extensions and the consistency of the two signature algorithm fields.

Name constraints, alternative names and public keys stay abstract.  What is decided about
them outside the verifier (parsing a key, verifying a signature, testing a name against a
constraint, the delegate's opinion) comes with an `Environment`.
-/

namespace ChromiumBase.PathVerifier

abbrev Input := List ℕ

structure BitString where
  bytes : Input
  deriving DecidableEq

/-- Bit 0 is the most significant bit of the first octet. -/
def BitString.assertsBit (s : BitString) (bitIndex : ℕ) : Bool :=
  let byteIndex := bitIndex / 8
  match s.bytes[byteIndex]? with
  | none => false
  | some byte => byte.testBit (7 - (bitIndex - byteIndex * 8))

structure GeneralizedTime where
  year : ℕ
  month : ℕ
  day : ℕ
  hours : ℕ
  minutes : ℕ
  seconds : ℕ
  deriving DecidableEq

def GeneralizedTime.fields (t : GeneralizedTime) : List ℕ :=
  [t.year, t.month, t.day, t.hours, t.minutes, t.seconds]

instance : LT GeneralizedTime :=
  ⟨fun lhs rhs => lhs.fields < rhs.fields⟩

instance (lhs rhs : GeneralizedTime) : Decidable (lhs < rhs) :=
  inferInstanceAs (Decidable (lhs.fields < rhs.fields))

inductive DigestAlgorithm where
  | md2 | md4 | md5 | sha1 | sha256 | sha384 | sha512
  deriving DecidableEq

inductive SignatureAlgorithmId where
  | rsaPkcs1 | rsaPss | ecdsa | dsa
  deriving DecidableEq

structure RsaPssParameters where
  mgf1Hash : DigestAlgorithm
  saltLength : ℕ
  deriving DecidableEq

structure SignatureAlgorithm where
  algorithm : SignatureAlgorithmId
  digest : DigestAlgorithm
  params : Option RsaPssParameters
  deriving DecidableEq

structure ParsedBasicConstraints where
  isCa : Bool
  pathLen : Option ℕ
  deriving DecidableEq

structure ParsedPolicyConstraints where
  requireExplicitPolicy : Option ℕ
  inhibitPolicyMapping : Option ℕ
  deriving DecidableEq

structure ParsedPolicyMapping where
  issuerDomainPolicy : Input
  subjectDomainPolicy : Input
  deriving DecidableEq

structure ParsedExtension where
  oid : Input
  value : Input
  critical : Bool
  deriving DecidableEq

/-- A parsed certificate.  An absent extension is `none`. -/
structure ParsedCertificate (NameConstraints GeneralNames : Type*) where
  tbsCertificateTlv : Input
  signatureAlgorithmTlv : Input
  signatureValue : BitString
  tbsSignatureAlgorithmTlv : Input
  validityNotBefore : GeneralizedTime
  validityNotAfter : GeneralizedTime
  spkiTlv : Input
  signatureAlgorithm : SignatureAlgorithm
  normalizedSubject : Input
  normalizedIssuer : Input
  basicConstraints : Option ParsedBasicConstraints
  keyUsage : Option BitString
  extendedKeyUsage : Option (List Input)
  subjectAltNames : Option GeneralNames
  nameConstraints : Option NameConstraints
  policyOids : Option (List Input)
  policyConstraints : Option ParsedPolicyConstraints
  policyMappings : Option (List ParsedPolicyMapping)
  inhibitAnyPolicy : Option ℕ
  extensions : List ParsedExtension

inductive KeyPurpose where
  | anyEku | serverAuth | clientAuth
  deriving DecidableEq

inductive CertificateTrustType where
  | distrusted | unspecified | trustedAnchor | trustedAnchorWithConstraints
  deriving DecidableEq

def CertificateTrustType.isTrustAnchor : CertificateTrustType → Bool
  | distrusted => false
  | unspecified => false
  | trustedAnchor => true
  | trustedAnchorWithConstraints => true

inductive Severity where
  | high | warning
  deriving DecidableEq

/-- The identifiers of the verifier's own errors; a delegate has further ones. -/
inductive CertErrorId where
  | validityFailedNotAfter
  | validityFailedNotBefore
  | distrustedByTrustStore
  | signatureAlgorithmMismatch
  | chainIsEmpty
  | chainIsLength1
  | unconsumedCriticalExtension
  | targetCertInconsistentCaBits
  | keyCertSignBitNotSet
  | maxPathLengthViolated
  | basicConstraintsIndicatesNotCa
  | missingBasicConstraints
  | notPermittedByNameConstraints
  | tooManyNameConstraintChecks
  | subjectDoesNotMatchIssuer
  | verifySignedDataFailed
  | signatureAlgorithmsDifferentEncoding
  | ekuLacksServerAuth
  | ekuLacksServerAuthButHasGatedCrypto
  | ekuLacksClientAuth
  | certIsNotTrustAnchor
  | noValidPolicy
  | policyMappingAnyPolicy
  | failedParsingSpki
  | unacceptableSignatureAlgorithm
  | unacceptablePublicKey
  | delegate (text : String)
  deriving DecidableEq

structure CertError where
  severity : Severity
  id : CertErrorId
  deriving DecidableEq

abbrev CertErrors := List CertError

def addError (id : CertErrorId) : CertErrors :=
  [⟨.high, id⟩]

def addWarning (id : CertErrorId) : CertErrors :=
  [⟨.warning, id⟩]

def addErrorIf (condition : Bool) (id : CertErrorId) : CertErrors :=
  if condition then addError id else []

def containsAnyErrorWithSeverity (errors : CertErrors) (severity : Severity) : Bool :=
  errors.any fun error => error.severity = severity

def Clean (errors : CertErrors) : Prop :=
  containsAnyErrorWithSeverity errors .high = false

@[simp] theorem clean_nil : Clean [] := rfl

@[simp] theorem clean_append {errors errors' : CertErrors} :
    Clean (errors ++ errors') ↔ Clean errors ∧ Clean errors' := by
  simp [Clean, containsAnyErrorWithSeverity]

variable (id : CertErrorId)

@[simp] theorem not_clean_addError : ¬ Clean (addError id) := by
  simp [Clean, containsAnyErrorWithSeverity, addError]

@[simp] theorem clean_addErrorIf {condition : Bool} {id : CertErrorId} :
    Clean (addErrorIf condition id) ↔ condition = false := by
  cases condition <;> simp [addErrorIf]

inductive NameConstraintsFailure where
  | tooManyChecks | notPermitted
  deriving DecidableEq

/-- The functions path verification calls: the delegate's two methods with the errors they
report, key and signature primitives, and the parsers and matchers of other files. -/
structure Environment (PublicKey NameConstraints GeneralNames : Type*) where
  isSignatureAlgorithmAcceptable : SignatureAlgorithm → Bool × List (Severity × String)
  isPublicKeyAcceptable : PublicKey → Bool × List (Severity × String)
  parsePublicKey : Input → Option PublicKey
  verifySignedData : SignatureAlgorithm → Input → BitString → PublicKey → Bool
  isEquivalent : Input → Input → Bool
  parseCertificatePoliciesExtension : Input → Bool
  isPermittedCert : NameConstraints → Input → Option GeneralNames →
    Option NameConstraintsFailure
  /-- What a pointer to a node reads when the level it points into has been moved. -/
  staleRootPolicy : ℕ → Input

variable {PublicKey NameConstraints GeneralNames : Type*}

def delegateErrors (reported : List (Severity × String)) : CertErrors :=
  reported.map fun error => ⟨error.1, .delegate error.2⟩

def basicConstraintsOid : Input := [0x55, 0x1d, 0x13]
def keyUsageOid : Input := [0x55, 0x1d, 0x0f]
def extKeyUsageOid : Input := [0x55, 0x1d, 0x25]
def nameConstraintsOid : Input := [0x55, 0x1d, 0x1e]
def subjectAltNameOid : Input := [0x55, 0x1d, 0x11]
def certificatePoliciesOid : Input := [0x55, 0x1d, 0x20]
def policyMappingsOid : Input := [0x55, 0x1d, 0x21]
def policyConstraintsOid : Input := [0x55, 0x1d, 0x24]
def inhibitAnyPolicyOid : Input := [0x55, 0x1d, 0x36]

def anyEku : Input := [0x55, 0x1d, 0x25, 0x00]
def serverAuth : Input := [0x2b, 0x06, 0x01, 0x05, 0x05, 0x07, 0x03, 0x01]
def clientAuth : Input := [0x2b, 0x06, 0x01, 0x05, 0x05, 0x07, 0x03, 0x02]
def netscapeServerGatedCrypto : Input :=
  [0x60, 0x86, 0x48, 0x01, 0x86, 0xf8, 0x42, 0x04, 0x01]

def keyUsageBitKeyCertSign : ℕ := 5

variable (env : Environment PublicKey NameConstraints GeneralNames)
  (cert : ParsedCertificate NameConstraints GeneralNames)

/-- Critical certificate policies count as handled if all their qualifiers are known. -/
def isHandledCriticalExtension (extension : ParsedExtension) : Bool :=
  if extension.oid = basicConstraintsOid then true
  else if extension.oid = keyUsageOid then true
  else if extension.oid = extKeyUsageOid then true
  else if extension.oid = nameConstraintsOid then true
  else if extension.oid = subjectAltNameOid then true
  else if extension.oid = certificatePoliciesOid then
    env.parseCertificatePoliciesExtension extension.value
  else if extension.oid = policyMappingsOid then true
  else if extension.oid = policyConstraintsOid then true
  else if extension.oid = inhibitAnyPolicyOid then true
  else false

def verifyNoUnconsumedCriticalExtensions : CertErrors :=
  cert.extensions.flatMap fun extension =>
    addErrorIf (extension.critical && !isHandledCriticalExtension env extension)
      .unconsumedCriticalExtension

def isSelfIssued : Bool :=
  cert.normalizedSubject = cert.normalizedIssuer

def verifyTimeValidity (time : GeneralizedTime) : CertErrors :=
  addErrorIf (time < cert.validityNotBefore) .validityFailedNotBefore
    ++ addErrorIf (cert.validityNotAfter < time) .validityFailedNotAfter

/-- The two algorithm fields are to be the same octets; another encoding of the same
algorithm is let pass with a warning. -/
def verifySignatureAlgorithmsMatch : Bool × CertErrors :=
  if cert.signatureAlgorithmTlv = cert.tbsSignatureAlgorithmTlv then (true, [])
  else if env.isEquivalent cert.signatureAlgorithmTlv cert.tbsSignatureAlgorithmTlv then
    (true, addWarning .signatureAlgorithmsDifferentEncoding)
  else (false, addError .signatureAlgorithmMismatch)

def isLegacyCa : Bool :=
  cert.basicConstraints.any (·.isCa)
    && cert.signatureAlgorithm.algorithm = .rsaPkcs1 && cert.signatureAlgorithm.digest = .sha1

/-- For server authentication, Netscape's server gated crypto is still let pass in legacy CA
certificates, with a warning. -/
def verifyExtendedKeyUsage (requiredKeyPurpose : KeyPurpose) : CertErrors :=
  match requiredKeyPurpose, cert.extendedKeyUsage with
  | .anyEku, _ => []
  | .serverAuth, none => []
  | .serverAuth, some purposes =>
    if purposes.any (fun oid => oid = anyEku || oid = serverAuth) then []
    else if purposes.contains netscapeServerGatedCrypto then
      addWarning .ekuLacksServerAuthButHasGatedCrypto
        ++ addErrorIf (!isLegacyCa cert) .ekuLacksServerAuth
    else addError .ekuLacksServerAuth
  | .clientAuth, none => []
  | .clientAuth, some purposes =>
    if purposes.any (fun oid => oid = anyEku || oid = clientAuth) then []
    else addError .ekuLacksClientAuth

/-- A target with one of the properties of a CA must have all of them. -/
def verifyTargetCertHasConsistentCaBits : CertErrors :=
  let hasCaProperty :=
    cert.basicConstraints.any (fun constraints => constraints.isCa || constraints.pathLen.isSome)
      || cert.keyUsage.any (·.assertsBit keyUsageBitKeyCertSign)
  let success :=
    cert.basicConstraints.any (·.isCa)
      && cert.keyUsage.all (·.assertsBit keyUsageBitKeyCertSign)
  addErrorIf (hasCaProperty && !success) .targetCertInconsistentCaBits

end ChromiumBase.PathVerifier
