import Mathlib.Data.List.Chain
import ChromiumBase.Net.Cert.PathVerifier.Verify

/-!
# What a verified chain guarantees

`TrustedPath` says what the relying party gets from a chain: the last certificate is a trust
anchor, neighbours are linked by signature and name, every certificate below the anchor is
valid now and allowed for the purpose, the ones between are CAs, and path lengths and name
constraints hold between certificates that are far apart in the chain.  A chain that is
verified without an error of high severity is a trusted path.

Each check is read once into `Checked` and `Prepared`, a step of the verifier.  `Accepts` is
a run of such steps down to the target, and each property of the path is an induction over
it.
-/

open List

namespace ChromiumBase.PathVerifier

open ValidPolicyTree

variable {PublicKey NameConstraints GeneralNames : Type*} {isTargetCert : Bool}

section

variable (env : Environment PublicKey NameConstraints GeneralNames)
  (cert : ParsedCertificate NameConstraints GeneralNames)

def SignedBy (cert issuer : ParsedCertificate NameConstraints GeneralNames) : Prop :=
  ∃ key, env.parsePublicKey issuer.spkiTlv = some key ∧
    env.verifySignedData cert.signatureAlgorithm cert.tbsCertificateTlv cert.signatureValue key
      = true

def ValidAt (time : GeneralizedTime) : Prop :=
  ¬ time < cert.validityNotBefore ∧ ¬ cert.validityNotAfter < time

/-- The extended key usage, if there is one, allows the purpose.  Legacy CA certificates may
have server gated crypto in the place of server authentication. -/
def AllowedFor : KeyPurpose → Prop
  | .anyEku => True
  | .serverAuth => ∀ purposes, cert.extendedKeyUsage = some purposes →
      anyEku ∈ purposes ∨ serverAuth ∈ purposes ∨
        (netscapeServerGatedCrypto ∈ purposes ∧ isLegacyCa cert = true)
  | .clientAuth => ∀ purposes, cert.extendedKeyUsage = some purposes →
      anyEku ∈ purposes ∨ clientAuth ∈ purposes

structure AssertsCa : Prop where
  isCa : ∃ constraints, cert.basicConstraints = some constraints ∧ constraints.isCa = true
  keyCertSign : ∀ usage, cert.keyUsage = some usage →
    usage.assertsBit keyUsageBitKeyCertSign = true

def pathLenConstraint : Option ℕ :=
  cert.basicConstraints.bind (·.pathLen)

def Permits (constraints : NameConstraints)
    (cert : ParsedCertificate NameConstraints GeneralNames) : Prop :=
  env.isPermittedCert constraints cert.normalizedSubject cert.subjectAltNames = none

/-- What a chain with the target first is trusted for.  The constraints of the last
certificate count if the anchor is trusted with constraints. -/
structure TrustedPath
    (settings : Settings) (certs : List (ParsedCertificate NameConstraints GeneralNames))
    (trust : CertificateTrustType) : Prop where
  anchored : certs ≠ [] ∧ trust.isTrustAnchor = true
  linked : ∀ {below cert issuer above}, certs = below ++ cert :: issuer :: above →
    SignedBy env cert issuer ∧ cert.normalizedIssuer = issuer.normalizedSubject
  usable : ∀ {below cert above}, certs = below ++ cert :: above → above ≠ [] →
    ValidAt cert settings.time ∧ AllowedFor cert settings.requiredKeyPurpose
  issuersAreCas : ∀ {target below cert above}, certs = target :: below ++ cert :: above →
    above ≠ [] → AssertsCa cert
  pathLength : ∀ {target below cert above len}, certs = target :: below ++ cert :: above →
    (above ≠ [] ∨ trust = .trustedAnchorWithConstraints) → pathLenConstraint cert = some len →
      below.countP (fun between => !isSelfIssued between) ≤ len
  namesPermitted : ∀ {below cert between issuer above constraints},
    certs = below ++ cert :: between ++ issuer :: above →
    (above ≠ [] ∨ trust = .trustedAnchorWithConstraints) →
    issuer.nameConstraints = some constraints → (below = [] ∨ isSelfIssued cert = false) →
      Permits env constraints cert

end

variable {cert : ParsedCertificate NameConstraints GeneralNames}

theorem allowedFor_of_clean {purpose : KeyPurpose}
    (h : Clean (verifyExtendedKeyUsage cert purpose)) : AllowedFor cert purpose := by
  cases purpose with
  | anyEku => trivial
  | serverAuth =>
    intro purposes hp
    simp only [verifyExtendedKeyUsage, hp] at h
    split_ifs at h with hl hg
    · obtain ⟨oid, hmem, hoid⟩ := any_eq_true.1 hl
      rcases (by simpa using hoid : oid = anyEku ∨ oid = serverAuth) with rfl | rfl
      · exact .inl hmem
      · exact .inr (.inl hmem)
    · have hca : isLegacyCa cert = true := by simpa using (clean_append.1 h).2
      exact .inr (.inr ⟨by simpa using hg, hca⟩)
    · exact absurd h (not_clean_addError _)
  | clientAuth =>
    intro purposes hp
    simp only [verifyExtendedKeyUsage, hp] at h
    split_ifs at h with hl
    · obtain ⟨oid, hmem, hoid⟩ := any_eq_true.1 hl
      rcases (by simpa using hoid : oid = anyEku ∨ oid = clientAuth) with rfl | rfl
      · exact .inl hmem
      · exact .inr hmem
    · exact absurd h (not_clean_addError _)

variable {env : Environment PublicKey NameConstraints GeneralNames} {settings : Settings}
  {root : ParsedCertificate NameConstraints GeneralNames} {trust : CertificateTrustType}

theorem exists_key_of_clean {spki : Input} (h : Clean (parseAndCheckPublicKey env spki).2) :
    ∃ key, env.parsePublicKey spki = some key ∧ (parseAndCheckPublicKey env spki).1 = some key := by
  rcases Option.eq_none_or_eq_some (env.parsePublicKey spki) with hn | ⟨key, hkey⟩
  · simp [parseAndCheckPublicKey, hn] at h
  · exact ⟨key, hkey, by simp [parseAndCheckPublicKey, hkey]⟩

theorem clean_nameConstraintsErrors {failure : Option NameConstraintsFailure} :
    Clean (nameConstraintsErrors failure) ↔ failure = none := by
  rcases failure with _ | _ | _ <;> simp [nameConstraintsErrors]

theorem clean_flatMap {α : Type*} {l : List α} {f : α → CertErrors} :
    Clean (l.flatMap f) ↔ ∀ a ∈ l, Clean (f a) := by
  induction l with
  | nil => simp
  | cons a as ih => simp [ih]

structure Checked (env : Environment PublicKey NameConstraints GeneralNames)
    (settings : Settings) (state : State PublicKey NameConstraints)
    (cert : ParsedCertificate NameConstraints GeneralNames) (isTargetCert : Bool) : Prop where
  signed : ∀ key, state.workingPublicKey = some key →
    env.verifySignedData cert.signatureAlgorithm cert.tbsCertificateTlv cert.signatureValue key
      = true
  issuerName : cert.normalizedIssuer = state.workingNormalizedIssuerName
  usable : ValidAt cert settings.time ∧ AllowedFor cert settings.requiredKeyPurpose
  namesPermitted : (isSelfIssued cert = false ∨ isTargetCert = true) →
    ∀ constraints ∈ state.nameConstraintsList, Permits env constraints cert

/-- The variables that only the preparation for the next certificate changes. -/
structure SameExpectations (state state' : State PublicKey NameConstraints) : Prop where
  key : state'.workingPublicKey = state.workingPublicKey
  issuerName : state'.workingNormalizedIssuerName = state.workingNormalizedIssuerName
  nameConstraints : state'.nameConstraintsList = state.nameConstraintsList
  maxPathLength : state'.maxPathLength = state.maxPathLength

section

variable {state : State PublicKey NameConstraints}

theorem verifySignature_clean (h : Clean (verifySignature env state cert).1) :
    (verifySignature env state cert).2 = false ∧ ∀ key, state.workingPublicKey = some key →
        env.verifySignedData cert.signatureAlgorithm cert.tbsCertificateTlv
          cert.signatureValue key = true := by
  simp only [verifySignature, clean_append, clean_addErrorIf, Bool.not_eq_false',
    Option.all_eq_true] at h
  obtain ⟨⟨hm, -, ha⟩, hs⟩ := h
  have halg : (verifySignatureAlgorithmsMatch env cert).1 = true := by
    simp only [verifySignatureAlgorithmsMatch] at hm ⊢
    split_ifs at hm ⊢
    · rfl
    · rfl
    · exact absurd hm (not_clean_addError _)
  refine ⟨?_, fun key hkey => hs key (by simpa using hkey)⟩
  have hall := Option.all_eq_true _ _ |>.2 hs
  simp only [verifySignature, halg, ha]
  simpa using hall

/-- What the basic processing has checked when it reports no error. -/
theorem checked_of_clean
    (h : Clean (basicCertificateProcessing env settings state cert isTargetCert).2.1) :
    (basicCertificateProcessing env settings state cert isTargetCert).2.2 = false ∧
      Checked env settings state cert isTargetCert ∧
      SameExpectations state
        (basicCertificateProcessing env settings state cert isTargetCert).1 := by
  by_cases hs : (verifySignature env state cert).2 = true
  · simp only [basicCertificateProcessing, hs] at h
    exact absurd (verifySignature_clean h).1 (by simp [hs])
  · simp only [basicCertificateProcessing, hs, clean_append, clean_addErrorIf,
      decide_eq_false_iff_not, not_not, Bool.false_eq_true, if_false] at h ⊢
    obtain ⟨⟨⟨⟨⟨hsi, hti⟩, hi⟩, hn⟩, -⟩, hp⟩ := h
    refine ⟨trivial, ⟨(verifySignature_clean hsi).2, hi,
      ⟨by simpa [verifyTimeValidity, ValidAt] using hti, allowedFor_of_clean hp⟩, ?_⟩,
      ⟨rfl, rfl, rfl, rfl⟩⟩
    intro hb constraints hmem
    have hc : (!isSelfIssued cert || isTargetCert) = true := by
      rcases hb with hse | ht
      · simp [hse]
      · simp [ht]
    rw [if_pos hc, clean_flatMap] at hn
    exact clean_nameConstraintsErrors.1 (hn constraints hmem)

structure LeftBy (env : Environment PublicKey NameConstraints GeneralNames)
    (issuer : ParsedCertificate NameConstraints GeneralNames)
    (state : State PublicKey NameConstraints) : Prop where
  key : ∃ key, env.parsePublicKey issuer.spkiTlv = some key ∧ state.workingPublicKey = some key
  issuerName : state.workingNormalizedIssuerName = issuer.normalizedSubject

structure Prepared (env : Environment PublicKey NameConstraints GeneralNames)
    (state : State PublicKey NameConstraints)
    (cert : ParsedCertificate NameConstraints GeneralNames)
    (next : State PublicKey NameConstraints) : Prop where
  leftBy : LeftBy env cert next
  nameConstraints : next.nameConstraintsList
    = state.nameConstraintsList ++ cert.nameConstraints.toList
  assertsCa : AssertsCa cert
  counted : next.maxPathLength + (if isSelfIssued cert then 0 else 1) ≤ state.maxPathLength
  limited : ∀ len, pathLenConstraint cert = some len → next.maxPathLength ≤ len

theorem limit_le (bound : Option ℕ) (counter : ℕ) : limit bound counter ≤ counter := by
  cases bound with
  | none => exact le_rfl
  | some value =>
    simp only [limit]
    split_ifs with h
    · exact h.le
    · exact le_rfl

theorem limit_le_bound {bound : Option ℕ} {value : ℕ} (h : bound = some value) (counter : ℕ) :
    limit bound counter ≤ value := by
  subst h
  simp only [limit]
  split_ifs with hlt
  · exact le_rfl
  · exact not_lt.1 hlt

theorem verifyPolicyMappings_same (env : Environment PublicKey NameConstraints GeneralNames)
    (state : State PublicKey NameConstraints)
    (cert : ParsedCertificate NameConstraints GeneralNames) :
    SameExpectations state (verifyPolicyMappings env state cert).1 := by
  unfold verifyPolicyMappings
  cases cert.policyMappings <;> exact ⟨rfl, rfl, rfl, rfl⟩

theorem verifyBasicConstraints_clean (h : Clean (verifyBasicConstraints state cert).2) :
    (∃ constraints, cert.basicConstraints = some constraints ∧ constraints.isCa = true) ∧
      (verifyBasicConstraints state cert).1.maxPathLength
        + (if isSelfIssued cert then 0 else 1) ≤ state.maxPathLength ∧
      ∀ len, pathLenConstraint cert = some len →
        (verifyBasicConstraints state cert).1.maxPathLength ≤ len := by
  obtain ⟨hca, hl⟩ := clean_append.1 h
  refine ⟨?_, ?_, fun len hlen => limit_le_bound hlen _⟩
  · rcases Option.eq_none_or_eq_some cert.basicConstraints with hn | ⟨constraints, hs⟩
    · simp [hn] at hca
    · exact ⟨constraints, hs, by simpa [hs] using hca⟩
  · have hle := limit_le (cert.basicConstraints.bind (·.pathLen))
      (if isSelfIssued cert then state.maxPathLength else state.maxPathLength - 1)
    simp only [clean_addErrorIf, Bool.and_eq_false_iff, Bool.not_eq_false',
      decide_eq_false_iff_not] at hl
    simp only [verifyBasicConstraints]
    split_ifs at hle ⊢ with hse
    · exact hle
    · have hpos : state.maxPathLength ≠ 0 := hl.resolve_left hse
      omega

/-- What the preparation for the next certificate has checked when it reports no error. -/
theorem prepared_of_clean (h : Clean (prepareForNextCertificate env state cert).2) :
    Prepared env state cert (prepareForNextCertificate env state cert).1 := by
  simp only [prepareForNextCertificate, clean_append] at h
  obtain ⟨⟨⟨⟨-, hkey⟩, hc⟩, hu⟩, -⟩ := h
  obtain ⟨key, hp, hch⟩ := exists_key_of_clean hkey
  obtain ⟨hca, hco, hl⟩ := verifyBasicConstraints_clean hc
  have hs := verifyPolicyMappings_same env state cert
  refine ⟨⟨⟨key, hp, hch⟩, rfl⟩, ?_, ⟨hca, ?_⟩, ?_, hl⟩
  · show (verifyPolicyMappings env state cert).1.nameConstraintsList ++ _ = _
    rw [hs.nameConstraints]
  · intro usage hu'
    simpa [hu'] using hu
  · rw [← hs.maxPathLength]
    exact hco

end

/-- The verifier goes from a state through the certificates of a list, the last of which is
the target, and has no objection. -/
inductive Accepts (env : Environment PublicKey NameConstraints GeneralNames)
    (settings : Settings) : State PublicKey NameConstraints →
      List (ParsedCertificate NameConstraints GeneralNames) → Prop where
  | target {state cert} : Checked env settings state cert true → Accepts env settings state [cert]
  | step {state cert next rest} : Checked env settings state cert false →
      Prepared env state cert next → Accepts env settings next rest →
      Accepts env settings state (cert :: rest)

/-- Certificates without errors are accepted, by induction over the list. -/
theorem accepts_of_clean {rest : List (ParsedCertificate NameConstraints GeneralNames)} :
    ∀ {state : State PublicKey NameConstraints}, rest ≠ [] →
      (∀ errors ∈ (processIssued env settings state rest).1, Clean errors) →
      Accepts env settings state rest := by
  induction rest with
  | nil => exact fun hne => absurd rfl hne
  | cons cert rest ih =>
    intro state _ hc
    have hh : Clean (basicCertificateProcessing env settings state cert rest.isEmpty).2.1 := by
      simp only [processIssued] at hc
      split_ifs at hc
      · exact hc _ (mem_cons_self)
      · exact (clean_append.1 (hc _ mem_cons_self)).1
      · exact (clean_append.1 (hc _ mem_cons_self)).1
    obtain ⟨hg, hch, hs⟩ := checked_of_clean hh
    simp only [processIssued, hg, Bool.false_eq_true, if_false, mem_cons,
      forall_eq_or_imp, clean_append] at hc
    cases rest with
    | nil => exact .target hch
    | cons below rest =>
      have hp := prepared_of_clean hc.1.2
      refine .step hch ⟨hp.leftBy, ?_, hp.assertsCa, ?_, hp.limited⟩ (ih (cons_ne_nil _ _) hc.2)
      · rw [hp.nameConstraints, hs.nameConstraints]
      · exact hp.counted.trans_eq hs.maxPathLength

namespace Accepts

variable {state : State PublicKey NameConstraints}
  {rest : List (ParsedCertificate NameConstraints GeneralNames)}

theorem ne_nil (h : Accepts env settings state rest) : rest ≠ [] := by
  cases h <;> exact cons_ne_nil _ _

theorem linked_head {issuer cert : ParsedCertificate NameConstraints GeneralNames}
    (hl : LeftBy env issuer state) (hc : Checked env settings state cert isTargetCert) :
    SignedBy env cert issuer ∧ cert.normalizedIssuer = issuer.normalizedSubject := by
  obtain ⟨key, hp, hkey⟩ := hl.key
  exact ⟨⟨key, hp, hc.signed key hkey⟩, hc.issuerName.trans hl.issuerName⟩

variable (h : Accepts env settings state rest)

include h

theorem isChain_linked :
    ∀ {issuer : ParsedCertificate NameConstraints GeneralNames}, LeftBy env issuer state →
      (issuer :: rest).IsChain fun issuer cert =>
        SignedBy env cert issuer ∧ cert.normalizedIssuer = issuer.normalizedSubject := by
  induction h with
  | target hc =>
    intro issuer hl
    exact isChain_pair.2 (linked_head hl hc)
  | step hc hp _ ih =>
    intro issuer hl
    exact isChain_cons_cons.2 ⟨linked_head hl hc, ih hp.leftBy⟩

theorem usable :
    ∀ cert ∈ rest, ValidAt cert settings.time ∧ AllowedFor cert settings.requiredKeyPurpose := by
  induction h with
  | target hc =>
    intro cert hmem
    obtain rfl := mem_singleton.1 hmem
    exact hc.usable
  | step hc _ _ ih =>
    intro cert hmem
    rcases mem_cons.1 hmem with rfl | hmem
    · exact hc.usable
    · exact ih cert hmem

theorem assertsCa : ∀ cert ∈ rest.dropLast, AssertsCa cert := by
  induction h with
  | target _ => simp
  | step _ hp hr ih =>
    intro cert hmem
    rw [dropLast_cons_of_ne_nil hr.ne_nil] at hmem
    rcases mem_cons.1 hmem with rfl | hmem
    · exact hp.assertsCa
    · exact ih cert hmem

/-- The intermediates that are left fit into the path length that is left. -/
theorem countP_le :
    rest.dropLast.countP (fun cert => !isSelfIssued cert) ≤ state.maxPathLength := by
  induction h with
  | target _ => simp
  | @step state cert next rest _ hp hr ih =>
    rw [dropLast_cons_of_ne_nil hr.ne_nil, countP_cons]
    have hc := hp.counted
    cases hs : isSelfIssued cert with
    | true =>
      simp only [hs]
        at hc ⊢
      exact ih.trans hc
    | false =>
      simp only [hs] at hc ⊢
      exact (Nat.add_le_add_right ih 1).trans hc

theorem exists_prepared : ∀ {above : List (ParsedCertificate NameConstraints GeneralNames)}
      {cert : ParsedCertificate NameConstraints GeneralNames}
      {below : List (ParsedCertificate NameConstraints GeneralNames)},
      rest = above ++ cert :: below → below ≠ [] →
      ∃ before next, Prepared env before cert next ∧ Accepts env settings next below := by
  induction h with
  | target _ =>
    intro above cert below hr hne
    have hlen := congrArg List.length hr
    have hpos := length_pos_of_ne_nil hne
    simp at hlen
    omega
  | @step state head next rest _ hp hn ih =>
    intro above cert below hr hne
    cases above with
    | nil =>
      obtain ⟨rfl, rfl⟩ := List.cons.inj hr
      exact ⟨state, next, hp, hn⟩
    | cons _ above => exact ih (List.cons.inj hr).2 hne

/-- Name constraints that are in force stay so for all certificates below. -/
theorem namesPermitted : ∀ {above : List (ParsedCertificate NameConstraints GeneralNames)}
      {cert : ParsedCertificate NameConstraints GeneralNames}
      {below : List (ParsedCertificate NameConstraints GeneralNames)}
      {constraints : NameConstraints},
      constraints ∈ state.nameConstraintsList → rest = above ++ cert :: below →
      (below = [] ∨ isSelfIssued cert = false) → Permits env constraints cert := by
  induction h with
  | @target state head hc =>
    intro above cert below constraints hmem hr _
    have hce : head = cert := by
      have : cert ∈ [head] := by rw [hr]; simp
      exact (mem_singleton.1 this).symm
    exact hce ▸ hc.namesPermitted (.inr rfl) constraints hmem
  | @step state head next rest hc hp hn ih =>
    intro above cert below constraints hmem hr hb
    cases above with
    | nil =>
      obtain ⟨rfl, rfl⟩ := List.cons.inj hr
      exact hc.namesPermitted (.inl (hb.resolve_left hn.ne_nil))
        constraints hmem
    | cons _ above =>
      refine ih ?_ (List.cons.inj hr).2 hb
      rw [hp.nameConstraints]
      exact mem_append_left _ hmem

end Accepts

structure Anchored (env : Environment PublicKey NameConstraints GeneralNames)
    (root : ParsedCertificate NameConstraints GeneralNames) (trust : CertificateTrustType)
    (state : State PublicKey NameConstraints) : Prop where
  isTrustAnchor : trust.isTrustAnchor = true
  leftBy : LeftBy env root state
  nameConstraints : trust = .trustedAnchorWithConstraints →
    ∀ constraints, root.nameConstraints = some constraints →
      constraints ∈ state.nameConstraintsList
  pathLength : trust = .trustedAnchorWithConstraints →
    ∀ len, pathLenConstraint root = some len → state.maxPathLength ≤ len

variable {state : State PublicKey NameConstraints}

theorem anchored_of_clean (h : Clean (processRootCertificate env settings state root trust).2.1) :
    (processRootCertificate env settings state root trust).2.2 = false ∧
      Anchored env root trust (processRootCertificate env settings state root trust).1 := by
  cases trust with
  | distrusted | unspecified => exact absurd h (not_clean_addError _)
  | trustedAnchor =>
    obtain ⟨key, hp, hc⟩ := exists_key_of_clean (clean_append.1 h).2
    exact ⟨rfl, rfl, ⟨⟨key, hp, hc⟩, rfl⟩, nofun, nofun⟩
  | trustedAnchorWithConstraints =>
    obtain ⟨key, hp, hc⟩ := exists_key_of_clean (clean_append.1 h).2
    refine ⟨rfl, rfl, ⟨⟨key, hp, hc⟩, rfl⟩, ?_, ?_⟩
    · intro _ constraints hco
      show constraints ∈ state.nameConstraintsList ++ root.nameConstraints.toList
      rw [hco]
      exact mem_append_right _ mem_cons_self
    · intro _ len hlen
      show (pathLenConstraint root).getD state.maxPathLength ≤ len
      rw [hlen, Option.getD_some]

/-- The clauses of a trusted path, from a root that is an anchor and the certificates below it. -/
theorem trustedPath_of_accepts {rest certs : List (ParsedCertificate NameConstraints GeneralNames)}
    (hce : certs.reverse = root :: rest) (han : Anchored env root trust state)
    (ha : Accepts env settings state rest) : TrustedPath env settings certs trust := by
  -- a place in the chain is the root or a place in the run
  have hpl : ∀ {below cert above}, certs = below ++ cert :: above →
      (above = [] ∧ root = cert ∧ rest = below.reverse) ∨
        ∃ above', rest = above' ++ cert :: below.reverse := by
    intro below cert above h
    rw [h, reverse_append, reverse_cons, append_assoc, singleton_append]
      at hce
    rcases append_eq_cons_iff.1 hce with ⟨hab, hro⟩ | ⟨above', -, hr⟩
    · obtain ⟨hcer, hb⟩ := List.cons.inj hro
      exact .inl ⟨reverse_eq_nil_iff.1 hab, hcer.symm, hb.symm⟩
    · exact .inr ⟨above', hr⟩
  refine ⟨⟨?_, han.isTrustAnchor⟩, ?_, ?_, ?_, ?_, ?_⟩
  · rintro rfl
    exact cons_ne_nil _ _ hce.symm
  · intro below cert issuer above h
    have hch := ha.isChain_linked han.leftBy
    rw [← hce, h, isChain_reverse] at hch
    exact (isChain_append_cons_cons.1 hch).2.1
  · intro below cert above h hne
    rcases hpl h with ⟨hab, -⟩ | ⟨above', hr⟩
    · exact absurd hab hne
    · exact ha.usable cert (hr ▸ mem_append_right _ mem_cons_self)
  · intro target below cert above h hne
    rcases hpl h with ⟨hab, -⟩ | ⟨above', hr⟩
    · exact absurd hab hne
    · refine ha.assertsCa cert ?_
      rw [hr, reverse_cons, ← cons_append, ← append_assoc, dropLast_concat]
      exact mem_append_right _ mem_cons_self
  · intro target below cert above len h hco hlen
    have hcou : ∀ {next}, Accepts env settings next (target :: below).reverse →
        next.maxPathLength ≤ len → below.countP (fun between => !isSelfIssued between) ≤ len := by
      intro next hn hmax
      have hle := hn.countP_le
      rw [reverse_cons, dropLast_concat, countP_reverse] at hle
      exact hle.trans hmax
    rcases hpl h with ⟨hab, rfl, hr⟩ | ⟨above', hr⟩
    · exact hcou (hr ▸ ha)
        (han.pathLength (hco.resolve_left (not_not.2 hab)) len hlen)
    · obtain ⟨before, next, hp, hn⟩ := ha.exists_prepared hr (by simp)
      exact hcou hn (hp.limited len hlen)
  · intro below cert between issuer above constraints h hco hc hbo
    have hrun : ∀ {next}, Accepts env settings next (below ++ cert :: between).reverse →
        constraints ∈ next.nameConstraintsList → Permits env constraints cert := by
      intro next hn hmem
      have hre : (below ++ cert :: between).reverse
          = between.reverse ++ cert :: below.reverse := by simp
      exact hn.namesPermitted hmem hre (by simpa using hbo)
    rcases hpl h with ⟨hab, rfl, hr⟩ | ⟨above', hr⟩
    · exact hrun (hr ▸ ha) (han.nameConstraints
        (hco.resolve_left (not_not.2 hab)) constraints hc)
    · obtain ⟨before, next, hp, hn⟩ := ha.exists_prepared hr (by simp)
      refine hrun hn ?_
      rw [hp.nameConstraints, hc]
      exact mem_append_right _ mem_cons_self

theorem clean_of_containsHighSeverityErrors {errors : CertPathErrors}
    (h : errors.containsHighSeverityErrors = false) :
    (∀ bucket ∈ errors.certErrors, Clean bucket) ∧ Clean errors.otherErrors := by
  simp only [CertPathErrors.containsHighSeverityErrors,
    CertPathErrors.containsAnyErrorWithSeverity, Bool.or_eq_false_iff] at h
  exact ⟨fun bucket hmem => by simpa [Clean] using (any_eq_false.1 h.1) bucket hmem, h.2⟩

/-- A chain verified without an error of high severity is a trusted path: signatures, names,
times, purposes, CA bits, path lengths and name constraints are as they should be. -/
theorem verifyCertificateChain_trustedPath
    (env : Environment PublicKey NameConstraints GeneralNames) (settings : Settings)
    (certs : List (ParsedCertificate NameConstraints GeneralNames)) (trust : CertificateTrustType)
    (h : (verifyCertificateChain env settings certs trust).errors.containsHighSeverityErrors
      = false) :
    TrustedPath env settings certs trust := by
  obtain ⟨hb, ho⟩ := clean_of_containsHighSeverityErrors h
  rcases hc : certs.reverse with _ | ⟨root, _ | ⟨cert, rest⟩⟩
  · simp [verifyCertificateChain, hc] at ho
  · simp [verifyCertificateChain, hc] at ho
  · simp only [verifyCertificateChain, hc] at hb
    have hr : Clean (processRootCertificate env settings
        (initialState settings (cert :: rest).length) root trust).2.1 := by
      split_ifs at hb <;> exact hb _ (mem_reverse.2 mem_cons_self)
    obtain ⟨hg, ha⟩ := anchored_of_clean hr
    simp only [hg] at hb
    refine trustedPath_of_accepts hc ha (accepts_of_clean (cons_ne_nil _ _) ?_)
    intro errors hmem
    exact hb errors (mem_reverse.2 (mem_cons_of_mem _ hmem))

theorem verifyCertificateChain_trustedPath_three :
    TrustedPath (lenientEnvironment fun subject => subject = [1] || subject = [2]) serverSettings
      [plainCertificate [1] [2] false, plainCertificate [2] [3] true,
        { plainCertificate [3] [3] true with
          basicConstraints := some ⟨true, some 1⟩
          nameConstraints := some () }]
      .trustedAnchorWithConstraints :=
  verifyCertificateChain_trustedPath _ _ _ _ rfl

/-- An anchor that is trusted without constraints passes no judgement on names: the target of
this chain is not permitted by the name constraints of the certificate that issued it. -/
theorem verifyCertificateChain_unconstrained_anchor :
    let env := lenientEnvironment fun _ => false
    let target := plainCertificate [1] [2] false
    let root := { plainCertificate [2] [2] true with nameConstraints := some () }
    let result := verifyCertificateChain env serverSettings [target, root] .trustedAnchor
    result.errors.containsHighSeverityErrors = false ∧
      root.nameConstraints = some () ∧ isSelfIssued target = false ∧ ¬ Permits env () target := by
  exact ⟨rfl, rfl, rfl, nofun⟩

end ChromiumBase.PathVerifier
