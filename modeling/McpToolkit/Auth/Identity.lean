import McpToolkit.Auth.Handler
/-!
# Whom a token names

`decode_token` finds a user in a token only if the token is the user, a point and
the signature of the user under the secret.  So a secret gives every user one
token, and no other signature does.
-/

namespace McpToolkit

/-- A text is split at its first `b` in one way. -/
theorem append_cons_inj {b : UInt8} {w w' t t' : Bytes} (hw : b ∉ w) (hw' : b ∉ w')
    (h : w ++ b :: t = w' ++ b :: t') : w = w' ∧ t = t' := by
  have hlen : w.length = w'.length := by
    have hidx := idxOf?_append_cons hw t
    rw [h, idxOf?_append_cons hw' t'] at hidx
    exact (Option.some.inj hidx).symm
  obtain ⟨hfst, hsnd⟩ := List.append_inj h hlen
  exact ⟨hfst, (List.cons.inj hsnd).2⟩

/-- A text without `b` begins another one before the first `b` or not at all. -/
theorem prefix_append_cons_iff {b : UInt8} {p w t : Bytes} (hp : b ∉ p) :
    p <+: w ++ b :: t ↔ p <+: w := by
  induction w generalizing p with
  | nil =>
      rw [List.nil_append, List.prefix_nil]
      refine ⟨fun h => ?_, fun h => ?_⟩
      · rcases List.prefix_cons_iff.mp h with hnil | ⟨p', rfl, -⟩
        · exact hnil
        · exact absurd List.mem_cons_self hp
      · rw [h]
        exact List.nil_prefix
  | cons c w ih =>
      cases p with
      | nil => exact iff_of_true List.nil_prefix List.nil_prefix
      | cons a p =>
          rw [List.mem_cons, not_or] at hp
          rw [List.cons_append, List.cons_prefix_cons, List.cons_prefix_cons, ih hp.2]

theorem eq_append_of_idxOf? {b : UInt8} {l : Bytes} {i : Nat} (h : l.idxOf? b = some i) :
    l = l.take i ++ b :: l.drop (i + 1) ∧ b ∉ l.take i := by
  obtain ⟨hi, hb, hfirst⟩ := List.idxOf?_eq_some_iff.mp h
  constructor
  · rw [← hb, List.cons_getElem_drop_succ, List.take_append_drop]
  · intro hmem
    obtain ⟨j, hj, rfl⟩ := List.mem_take_iff_getElem.mp hmem
    exact hfirst j (by omega) rfl

namespace AuthenticationHandler

variable {hmac : Bytes → Bytes → Digest} {h : AuthenticationHandler} {now : Int}
variable {userId token : Bytes}

/-- The token of a user under a secret. -/
def tokenOf (hmac : Bytes → Bytes → Digest) (secret userId : Bytes) : Bytes :=
  userId ++ point :: base64Encode (hmac secret userId).1

/-- What `decode_token` has checked once it names a user. -/
structure Names (hmac : Bytes → Bytes → Digest) (h : AuthenticationHandler) (now : Int)
    (token userId : Bytes) : Prop where
  secret : h.tokenSecret ≠ []
  pointFree : point ∉ userId
  genuine : token = tokenOf hmac h.tokenSecret userId
  notRevoked : token ∉ h.revokedTokens
  fresh : h.config.tokenTtl > 0 → h.isExpired now token = false

theorem computeTokenSignature_eq (hsecret : h.tokenSecret ≠ []) (userId : Bytes) :
    h.computeTokenSignature hmac userId = base64Encode (hmac h.tokenSecret userId).1 := by
  rw [computeTokenSignature, if_neg (by simpa using hsecret)]

/-- Past a check that returns nothing. -/
theorem of_ite_nil {c : Prop} [Decidable c] {u v : Bytes} (h : (if c then [] else u) = v)
    (hv : v ≠ []) : ¬ c ∧ u = v := by
  split_ifs at h with hc
  · exact absurd h.symm hv
  · exact ⟨hc, h⟩

theorem names_of_decodeToken (hdecode : h.decodeToken hmac now token = userId)
    (huser : userId ≠ []) : h.Names hmac now token userId := by
  unfold decodeToken at hdecode
  obtain ⟨hempty, hdecode⟩ := of_ite_nil hdecode huser
  have hsecret : h.tokenSecret ≠ [] := by
    intro hnil
    simp [hnil] at hempty
  cases hpoint : token.idxOf? point with
  | none =>
      rw [hpoint] at hdecode
      exact absurd hdecode.symm huser
  | some dotPos =>
      obtain ⟨hsplit, hfirst⟩ := eq_append_of_idxOf? hpoint
      rw [hpoint] at hdecode
      obtain ⟨-, hdecode⟩ := of_ite_nil hdecode huser
      obtain ⟨hverify, hdecode⟩ := of_ite_nil hdecode huser
      obtain ⟨hrevoked, hdecode⟩ := of_ite_nil hdecode huser
      obtain ⟨hexpired, hdecode⟩ := of_ite_nil hdecode huser
      rw [hdecode] at hsplit hfirst hverify
      have hsignature := (verifyTokenSignature_iff hsecret).mp (by simpa using hverify)
      rw [computeTokenSignature_eq hsecret] at hsignature
      rw [hsignature] at hsplit
      refine ⟨hsecret, hfirst, hsplit, by simpa [isRevoked] using hrevoked, ?_⟩
      intro httl
      simpa [httl] using hexpired

theorem decodeToken_eq_iff {hmac : Bytes → Bytes → Digest} {h : AuthenticationHandler} {now : Int}
    {token userId : Bytes} (huser : userId ≠ []) :
    h.decodeToken hmac now token = userId ↔ h.Names hmac now token userId := by
  refine ⟨fun hdecode => names_of_decodeToken hdecode huser, fun hnames => ?_⟩
  have hsignature : h.computeTokenSignature hmac userId = _ :=
    computeTokenSignature_eq hnames.secret userId
  have hrevoked := hnames.notRevoked
  have hfresh := hnames.fresh
  rw [hnames.genuine, tokenOf, ← hsignature] at hrevoked hfresh ⊢
  rw [decodeToken_split hnames.secret hnames.pointFree huser
    (computeTokenSignature_ne_nil hnames.secret userId), if_neg (not_not_intro rfl), isRevoked,
    if_neg (fun hmem => hrevoked (List.contains_iff_mem.mp hmem)), if_neg]
  rw [Bool.and_eq_true, decide_eq_true_eq]
  rintro ⟨httl, hexpired⟩
  exact Bool.false_ne_true ((hfresh httl).symm.trans hexpired)

/-- Two tokens under one secret that go on alike up to the point name the same user. -/
theorem Names.eq_of_prefix {h' : AuthenticationHandler} {later : Int}
    {userId' token' t : Bytes} (hn : h.Names hmac now token userId)
    (hn' : h'.Names hmac later token' userId') (hsecret : h'.tokenSecret = h.tokenSecret)
    (ht : token' = userId ++ point :: t) : token' = token := by
  have hgenuine := hn'.genuine
  rw [ht, tokenOf] at hgenuine
  obtain ⟨rfl, hsignature⟩ := append_cons_inj hn.pointFree hn'.pointFree hgenuine
  rw [hn.genuine, hn'.genuine, hsecret]

/-- If a token decodes to a user, the secret is not empty, the token is the user's
under the secret, and it is neither revoked nor expired.  So under one secret no
other token decodes to that user, and with another octet in its signature the token
does not decode at all. -/
theorem decodeToken_sound (hmac : Bytes → Bytes → Digest) (h : AuthenticationHandler) (now : Int)
    {token userId : Bytes} (hdecode : h.decodeToken hmac now token = userId)
    (huser : userId ≠ []) :
    (h.tokenSecret ≠ [] ∧ token = userId ++ point :: base64Encode (hmac h.tokenSecret userId).1 ∧
      token ∉ h.revokedTokens ∧ (h.config.tokenTtl > 0 → h.isExpired now token = false)) ∧
    ∀ (h' : AuthenticationHandler) (later : Int), h'.tokenSecret = h.tokenSecret →
      (∀ token', h'.decodeToken hmac later token' = userId → token' = token) ∧
      ∀ (i : Nat) (b : UInt8), userId.length < i → i < token.length → token[i]? ≠ some b →
        h'.decodeToken hmac later (token.set i b) = [] := by
  have hnames := names_of_decodeToken hdecode huser
  refine ⟨⟨hnames.secret, hnames.genuine, hnames.notRevoked, hnames.fresh⟩, ?_⟩
  intro h' later hsecret
  constructor
  · intro token' hdecode'
    have hnames' := names_of_decodeToken hdecode' huser
    exact hnames.eq_of_prefix hnames' hsecret hnames'.genuine
  · intro i b hlow hhigh hchanged
    by_contra hne
    have hset : token.set i b = userId ++ point ::
        (base64Encode (hmac h.tokenSecret userId).1).set (i - (userId.length + 1)) b := by
      have hsucc : i - userId.length = i - (userId.length + 1) + 1 := by omega
      rw [hnames.genuine, tokenOf, List.set_append_right i b (by omega), hsucc, List.set_cons_succ]
    have heq := hnames.eq_of_prefix (names_of_decodeToken rfl hne) hsecret hset
    apply hchanged
    rw [← heq, List.getElem?_set_self hhigh]

/-- HMAC-SHA256 under the key `key` of `bob`. -/
def bobHmac (_ _ : Bytes) : Digest :=
  ⟨[56, 51, 192, 48, 220, 183, 167, 16, 130, 227, 94, 36, 58, 14, 80, 222, 253, 118, 229, 201, 230,
    162, 30, 98, 255, 222, 46, 134, 251, 250, 132, 151], rfl⟩

theorem decodeToken_sound_of_bob :
    let h : AuthenticationHandler := { tokenSecret := ascii "key" }
    let token := ascii "bob.ODPAMNy3pxCC414kOg5Q3v125cnmoh5i/94uhvv6hJc="
    (h.tokenSecret ≠ [] ∧
      token = ascii "bob" ++ point :: base64Encode (bobHmac h.tokenSecret (ascii "bob")).1 ∧
      token ∉ h.revokedTokens ∧ (h.config.tokenTtl > 0 → h.isExpired 0 token = false)) ∧
    ∀ (h' : AuthenticationHandler) (later : Int), h'.tokenSecret = h.tokenSecret →
      (∀ token', h'.decodeToken bobHmac later token' = ascii "bob" → token' = token) ∧
      ∀ (i : Nat) (b : UInt8), (ascii "bob").length < i → i < token.length → token[i]? ≠ some b →
        h'.decodeToken bobHmac later (token.set i b) = [] :=
  decodeToken_sound bobHmac { tokenSecret := ascii "key" } 0 (by decide +kernel) (by decide)

/-! ## Tokens that are issued -/

/-- The token of a user decodes to the user exactly if no point is in the user's name. -/
theorem decodeToken_issued_iff (hmac : Bytes → Bytes → Digest) (h : AuthenticationHandler)
    (now : Int) {userId : Bytes} (huser : userId ≠ []) (hsecret : h.tokenSecret ≠ [])
    (hrevoked : h.isRevoked (userId ++ point :: h.computeTokenSignature hmac userId) = false)
    (hfresh : h.config.tokenTtl > 0 →
      h.isExpired now (userId ++ point :: h.computeTokenSignature hmac userId) = false) :
    h.decodeToken hmac now (userId ++ point :: h.computeTokenSignature hmac userId) = userId ↔
      point ∉ userId := by
  constructor
  · intro hdecode
    exact (names_of_decodeToken hdecode huser).pointFree
  · intro hpoint
    have hexpired : ¬ (decide (h.config.tokenTtl > 0) &&
        h.isExpired now (userId ++ point :: h.computeTokenSignature hmac userId)) = true := by
      rw [Bool.and_eq_true, decide_eq_true_eq]
      rintro ⟨httl, hexpired⟩
      exact Bool.false_ne_true ((hfresh httl).symm.trans hexpired)
    rw [decodeToken_split hsecret hpoint huser (computeTokenSignature_ne_nil hsecret userId),
      if_neg (not_not_intro rfl), hrevoked, if_neg Bool.false_ne_true, if_neg hexpired]

theorem decodeToken_issued_iff_of_bob :
    let h : AuthenticationHandler := { tokenSecret := ascii "key" }
    h.decodeToken bobHmac 0 (ascii "bob" ++ point :: h.computeTokenSignature bobHmac (ascii "bob")) =
      ascii "bob" :=
  (decodeToken_issued_iff bobHmac { tokenSecret := ascii "key" } 0 (by decide) (by decide)
    (by decide +kernel) (by decide)).mpr (by decide)

/-- HMAC-SHA256 under the key `key` of `bob@example.org`. -/
def addressHmac (_ _ : Bytes) : Digest :=
  ⟨[48, 139, 38, 72, 109, 88, 3, 46, 27, 208, 57, 140, 88, 108, 117, 124, 52, 221, 4, 157, 173, 3,
    124, 249, 237, 104, 148, 78, 251, 238, 184, 251], rfl⟩

/-- The token of an address names no one: it is split at the point in the address. -/
theorem decodeToken_address :
    let h : AuthenticationHandler := { tokenSecret := ascii "key" }
    let userId := ascii "bob@example.org"
    let token := userId ++ point :: h.computeTokenSignature addressHmac userId
    token = ascii "bob@example.org.MIsmSG1YAy4b0DmMWGx1fDTdBJ2tA3z57WiUTvvuuPs=" ∧
      h.isRevoked token = false ∧ h.isExpired 0 token = false ∧
      h.decodeToken addressHmac 0 token = [] := by
  decide +kernel

end AuthenticationHandler

end McpToolkit
