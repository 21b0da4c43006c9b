import McpToolkit.Auth.Base64
import McpToolkit.Base.Clock
import McpToolkit.Base.Decimal
/-!
# Tokens

`AuthenticationHandler` as far as a request needs it.  HMAC-SHA256 is a parameter
with 32 octets of output.  Time is counted in nanoseconds of the steady clock,
and a function that reads the clock takes the reading.  A token can be registered
with any time, so that its age need not fit into 64 bits.
-/

namespace McpToolkit

/-- The output of HMAC-SHA256. -/
abbrev Digest := { d : Bytes // d.length = 32 }

structure AuthConfig where
  minTokenLength : Nat := 16
  requireBearerPrefix : Bool := true
  maxFailedAttempts : Int32 := 10
  /-- In seconds; nothing expires unless it is positive. -/
  tokenTtl : Int := 3600
  deriving Repr, DecidableEq

structure AuthResult where
  allowed : Bool := false
  error : Bytes := []
  deriving Repr, DecidableEq

structure AuthenticationHandler where
  config : AuthConfig := {}
  configured : Bool := false
  tokenSecret : Bytes := []
  revokedTokens : List Bytes := []
  /-- The times at which tokens were registered. -/
  tokenIssueTimes : List (Bytes × Int) := []
  failedAttempts : List (Bytes × Int32) := []
  deriving Repr, DecidableEq

/-- A table without the entry of a key. -/
def eraseKey {α : Type} (table : List (Bytes × α)) (key : Bytes) : List (Bytes × α) :=
  table.filter fun e => e.1 ≠ key

theorem lookup_eraseKey {α : Type} (table : List (Bytes × α)) (key k : Bytes) :
    (eraseKey table key).lookup k = if k = key then none else table.lookup k := by
  induction table with
  | nil => simp [eraseKey]
  | cons e table ih =>
      rw [eraseKey] at ih ⊢
      rw [List.filter_cons]
      by_cases hkey : e.1 = key
      · rw [if_neg (by simpa using hkey), ih, List.lookup_cons, hkey]
        split_ifs with hk
        · rfl
        · rw [beq_eq_false_iff_ne.mpr hk]
      · rw [if_pos (by simpa using hkey), List.lookup_cons, List.lookup_cons, ih]
        by_cases hk : k = e.1
        · rw [hk, beq_self_eq_true]
          exact (if_neg hkey).symm
        · rw [beq_eq_false_iff_ne.mpr hk]

def kBearerPrefix : Bytes := ascii "Bearer "

def kBearerPrefixLen : Nat := 7

namespace AuthenticationHandler

def configure (h : AuthenticationHandler) (config : AuthConfig) : AuthenticationHandler :=
  { h with config, configured := true }

def registerToken (h : AuthenticationHandler) (token : Bytes) (issuedAt : Int) :
    AuthenticationHandler :=
  { h with tokenIssueTimes := (token, issuedAt) :: eraseKey h.tokenIssueTimes token }

def revokeToken (h : AuthenticationHandler) (token : Bytes) : AuthenticationHandler :=
  { h with
    revokedTokens := h.revokedTokens.insert token
    tokenIssueTimes := eraseKey h.tokenIssueTimes token }

def setTokenSecret (h : AuthenticationHandler) (secretKey : Bytes) : AuthenticationHandler :=
  { h with tokenSecret := secretKey }

/-- The counter is an `int` and wraps. -/
def recordFailure (h : AuthenticationHandler) (clientId : Bytes) : AuthenticationHandler :=
  let failures := (h.failedAttempts.lookup clientId).getD 0
  { h with failedAttempts := (clientId, failures + 1) :: eraseKey h.failedAttempts clientId }

def resetFailures (h : AuthenticationHandler) (clientId : Bytes) : AuthenticationHandler :=
  { h with failedAttempts := eraseKey h.failedAttempts clientId }

def isLockedOut (h : AuthenticationHandler) (clientId : Bytes) : Bool :=
  match h.failedAttempts.lookup clientId with
  | none => false
  | some failures => failures ≥ h.config.maxFailedAttempts

def isRevoked (h : AuthenticationHandler) (token : Bytes) : Bool := h.revokedTokens.contains token

/-- A token that was not registered does not expire. -/
def isExpired (h : AuthenticationHandler) (now : Int) (token : Bytes) : Bool :=
  match h.tokenIssueTimes.lookup token with
  | none => false
  | some issued =>
      let age := int64 (now - issued)
      age > nanoseconds h.config.tokenTtl

/-- The token behind `Bearer `, empty without one. -/
def extractBearer (authHeader : Bytes) : Bytes :=
  if authHeader.length ≤ kBearerPrefixLen then []
  else if authHeader.take kBearerPrefixLen ≠ kBearerPrefix then []
  else authHeader.drop kBearerPrefixLen

/-- What is wrong with a token, if anything is. -/
def validateFormat (h : AuthenticationHandler) (token : Bytes) : Option Bytes :=
  if token.length < h.config.minTokenLength then
    some (ascii "Token too short (minimum " ++ decimal h.config.minTokenLength ++
      ascii " characters)")
  else if token.contains 0 then some (ascii "Token contains null byte")
  else none

def validateRequest (h : AuthenticationHandler) (now : Int) (authToken : Bytes) : AuthResult :=
  if !h.configured then ⟨false, ascii "AuthenticationHandler not configured"⟩
  else if authToken.isEmpty then ⟨false, ascii "Authentication required"⟩
  else
    let token := if h.config.requireBearerPrefix then extractBearer authToken else authToken
    if h.config.requireBearerPrefix && token.isEmpty then
      ⟨false, ascii "Invalid authorization format: expected 'Bearer <token>'"⟩
    else
      match h.validateFormat token with
      | some error => ⟨false, error⟩
      | none =>
          if h.isRevoked token then ⟨false, ascii "Token has been revoked"⟩
          else if h.config.tokenTtl > 0 && h.isExpired now token then
            ⟨false, ascii "Token has expired"⟩
          else ⟨true, []⟩

section signatures

variable (hmac : Bytes → Bytes → Digest)

def computeTokenSignature (h : AuthenticationHandler) (userId : Bytes) : Bytes :=
  if h.tokenSecret.isEmpty then [] else base64Encode (hmac h.tokenSecret userId).1

/-- The comparison looks at every octet. -/
def verifyTokenSignature (h : AuthenticationHandler) (userId signature : Bytes) : Bool :=
  let computedSig := h.computeTokenSignature hmac userId
  if computedSig.isEmpty then false
  else if signature.length ≠ computedSig.length then false
  else (List.zipWith (· ^^^ ·) signature computedSig).foldl (· ||| ·) 0 = 0

/-- The user of a token `user_id.signature`, empty if the token is not valid. -/
def decodeToken (h : AuthenticationHandler) (now : Int) (authToken : Bytes) : Bytes :=
  if authToken.isEmpty || h.tokenSecret.isEmpty then []
  else
    match authToken.idxOf? point with
    | none => []
    | some dotPos =>
        let userIdPart := authToken.take dotPos
        let signaturePart := authToken.drop (dotPos + 1)
        if userIdPart.isEmpty || signaturePart.isEmpty then []
        else if !h.verifyTokenSignature hmac userIdPart signaturePart then []
        else if h.isRevoked authToken then []
        else if h.config.tokenTtl > 0 && h.isExpired now authToken then []
        else userIdPart

end signatures

/-! ## Specifications -/

section spec

variable {hmac : Bytes → Bytes → Digest} {h : AuthenticationHandler}

theorem foldl_or_eq_zero {l : Bytes} {a : UInt8} :
    l.foldl (· ||| ·) a = 0 ↔ a = 0 ∧ ∀ b ∈ l, b = 0 := by
  induction l generalizing a with
  | nil => simp
  | cons b l ih =>
      rw [List.foldl_cons, ih, UInt8.or_eq_zero_iff, List.forall_mem_cons, and_assoc]

theorem zipWith_xor_eq_zero : ∀ {s t : Bytes}, s.length = t.length →
    ((∀ b ∈ List.zipWith (· ^^^ ·) s t, b = 0) ↔ s = t)
  | [], [], _ => by simp
  | a :: s, b :: t, h => by
      have hlen : s.length = t.length := by simpa using h
      rw [List.zipWith_cons_cons, List.forall_mem_cons, zipWith_xor_eq_zero hlen,
        UInt8.xor_eq_zero_iff, List.cons.injEq]

theorem computeTokenSignature_ne_nil (hsecret : h.tokenSecret ≠ []) (userId : Bytes) :
    h.computeTokenSignature hmac userId ≠ [] := by
  have hdigest : (hmac h.tokenSecret userId).1 ≠ [] := by
    intro hnil
    have hlen := (hmac h.tokenSecret userId).2
    rw [hnil] at hlen
    cases hlen
  rw [computeTokenSignature, if_neg (by simpa using hsecret)]
  exact base64Encode_ne_nil hdigest

/-- The comparison of signatures is equality. -/
theorem verifyTokenSignature_iff (hsecret : h.tokenSecret ≠ []) {userId signature : Bytes} :
    h.verifyTokenSignature hmac userId signature = true ↔
      signature = h.computeTokenSignature hmac userId := by
  have hne : (h.computeTokenSignature hmac userId).isEmpty = false := by
    simpa using computeTokenSignature_ne_nil hsecret userId
  unfold verifyTokenSignature
  dsimp only
  rw [hne, if_neg Bool.false_ne_true]
  by_cases hlen : signature.length = (h.computeTokenSignature hmac userId).length
  · rw [if_neg (not_not_intro hlen), decide_eq_true_eq, foldl_or_eq_zero,
      zipWith_xor_eq_zero hlen]
    simp
  · rw [if_pos hlen]
    refine iff_of_false Bool.false_ne_true ?_
    rintro rfl
    exact hlen rfl

theorem notMem_computeTokenSignature {b : UInt8} (hb : b ∉ base64Chars ++ [0x3D])
    (userId : Bytes) : b ∉ h.computeTokenSignature hmac userId := by
  unfold computeTokenSignature
  split_ifs
  · exact List.not_mem_nil
  · exact notMem_base64Encode hb _

/-- The part of the header that the first check looks at. -/
def checkedToken (config : AuthConfig) (header : Bytes) : Bytes :=
  if config.requireBearerPrefix then header.drop kBearerPrefixLen else header

/-- A check that refuses is passed. -/
theorem ite_refused_iff {c : Prop} [Decidable c] {error : Bytes} {r : AuthResult} :
    (if c then ⟨false, error⟩ else r : AuthResult).allowed = true ↔ ¬ c ∧ r.allowed = true := by
  by_cases hc : c
  · rw [if_pos hc]
    exact iff_of_false Bool.false_ne_true fun h => h.1 hc
  · rw [if_neg hc]
    exact (and_iff_right hc).symm

theorem extractBearer_eq {header : Bytes} (h : kBearerPrefix <+: header) :
    extractBearer header = header.drop kBearerPrefixLen := by
  have htake : header.take kBearerPrefixLen = kBearerPrefix := (List.prefix_iff_eq_take.mp h).symm
  unfold extractBearer
  split_ifs with hshort hother
  · exact (List.drop_eq_nil_of_le hshort).symm
  · exact absurd htake hother
  · rfl

theorem extractBearer_ne_nil_iff {header : Bytes} : extractBearer header ≠ [] ↔
    kBearerPrefix <+: header ∧ kBearerPrefixLen < header.length := by
  constructor
  · intro hne
    unfold extractBearer at hne
    split_ifs at hne with hshort hother
    · exact absurd rfl hne
    · exact absurd rfl hne
    · rw [not_not] at hother
      refine ⟨?_, Nat.lt_of_not_le hshort⟩
      rw [← hother]
      exact List.take_prefix _ _
  · rintro ⟨hbegins, hlong⟩
    rw [extractBearer_eq hbegins, Ne, List.drop_eq_nil_iff]
    exact Nat.not_le.mpr hlong

theorem validateFormat_eq_none_iff {h : AuthenticationHandler} {token : Bytes} :
    h.validateFormat token = none ↔ h.config.minTokenLength ≤ token.length ∧ 0 ∉ token := by
  unfold validateFormat
  split_ifs with hshort hzero
  · exact iff_of_false not_false fun hlong => absurd hlong.1 (Nat.not_le.mpr hshort)
  · exact iff_of_false not_false fun hlong => hlong.2 (List.contains_iff_mem.mp hzero)
  · refine iff_of_true rfl ⟨Nat.not_lt.mp hshort, fun hmem => hzero ?_⟩
    exact List.contains_iff_mem.mpr hmem

/-- The first check, with all that it has to find. -/
theorem validateRequest_allowed_iff {h : AuthenticationHandler} {now : Int} {header : Bytes} :
    (h.validateRequest now header).allowed = true ↔ h.configured = true ∧ header ≠ [] ∧
      (h.config.requireBearerPrefix = true →
        kBearerPrefix <+: header ∧ kBearerPrefixLen < header.length) ∧
      (h.config.minTokenLength ≤ (checkedToken h.config header).length ∧
        0 ∉ checkedToken h.config header) ∧
      checkedToken h.config header ∉ h.revokedTokens ∧
      (h.config.tokenTtl > 0 → h.isExpired now (checkedToken h.config header) = false) := by
  have hbearer : ¬ (h.config.requireBearerPrefix &&
      (if h.config.requireBearerPrefix then extractBearer header else header).isEmpty) = true ↔
        (h.config.requireBearerPrefix = true →
          kBearerPrefix <+: header ∧ kBearerPrefixLen < header.length) := by
    rw [← extractBearer_ne_nil_iff]
    cases h.config.requireBearerPrefix <;> simp
  have hchecked : (h.config.requireBearerPrefix = true →
      kBearerPrefix <+: header ∧ kBearerPrefixLen < header.length) →
        (if h.config.requireBearerPrefix then extractBearer header else header) =
          checkedToken h.config header := by
    intro hbearer
    unfold checkedToken
    split_ifs with hrequired
    · exact extractBearer_eq (hbearer hrequired).1
    · rfl
  unfold validateRequest
  dsimp only
  rw [ite_refused_iff, ite_refused_iff, ite_refused_iff, hbearer, Bool.not_eq_true',
    Bool.not_eq_false, List.isEmpty_iff]
  refine and_congr_right fun _ => and_congr_right fun _ => and_congr_right fun hbearer => ?_
  rw [hchecked hbearer, ← validateFormat_eq_none_iff]
  cases h.validateFormat (checkedToken h.config header) with
  | some error => exact iff_of_false Bool.false_ne_true fun hnone => Option.some_ne_none _ hnone.1
  | none =>
      dsimp only
      rw [ite_refused_iff, ite_refused_iff, and_iff_right rfl, isRevoked, List.contains_iff_mem,
        Bool.and_eq_true, decide_eq_true_eq, not_and, Bool.not_eq_true, and_iff_left rfl]

theorem validateRequest_nil (now : Int) : (h.validateRequest now []).allowed = false := by
  unfold validateRequest
  rw [List.isEmpty_nil, if_pos rfl]
  split_ifs <;> rfl

/-- The first point ends the user. -/
theorem decodeToken_split (hsecret : h.tokenSecret ≠ []) {userId signature : Bytes}
    (hpoint : point ∉ userId) (huser : userId ≠ []) (hsignature : signature ≠ []) (now : Int) :
    h.decodeToken hmac now (userId ++ point :: signature) =
      if signature ≠ h.computeTokenSignature hmac userId then []
      else if h.isRevoked (userId ++ point :: signature) then []
      else if h.config.tokenTtl > 0 && h.isExpired now (userId ++ point :: signature) then []
      else userId := by
  have htoken : ((userId ++ point :: signature).isEmpty || h.tokenSecret.isEmpty) = false := by
    simp [hsecret]
  have htake : (userId ++ point :: signature).take userId.length = userId := List.take_left
  have hdrop : (userId ++ point :: signature).drop (userId.length + 1) = signature := by
    rw [List.append_cons]
    exact List.drop_left' (by simp)
  have hparts : (userId.isEmpty || signature.isEmpty) = false := by
    simp [huser, hsignature]
  unfold decodeToken
  rw [htoken, if_neg Bool.false_ne_true, idxOf?_append_cons hpoint]
  dsimp only
  rw [htake, hdrop, hparts, if_neg Bool.false_ne_true]
  by_cases hsig : signature = h.computeTokenSignature hmac userId
  · rw [(verifyTokenSignature_iff hsecret).mpr hsig, if_neg (not_not_intro hsig), Bool.not_true,
      if_neg Bool.false_ne_true]
  · have hverify : h.verifyTokenSignature hmac userId signature = false := by
      rw [Bool.eq_false_iff]
      exact fun hv => hsig ((verifyTokenSignature_iff hsecret).mp hv)
    rw [hverify, if_pos hsig]
    rfl

end spec

end AuthenticationHandler

end McpToolkit
