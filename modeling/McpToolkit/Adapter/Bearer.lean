import McpToolkit.Adapter.Gate
import McpToolkit.Adapter.Params
import McpToolkit.Auth.Identity
/-!
# Presenting a token

A token in the documented format on its way from the params to the user.  The handler
looks at the first member that looks like `auth_token`, at any depth, so the token has to
be there.  Where a `Bearer` prefix is demanded, `validate_request` takes it off, but
`decode_token` gets to see it and finds no user.
-/

namespace McpToolkit

open Scan Search

namespace AuthenticationHandler

/-- A token in the documented format that the handler has no reason to refuse. -/
structure Genuine (hmac : Bytes → Bytes → Digest) (h : AuthenticationHandler) (now later : Int)
    (userId token : Bytes) : Prop where
  configured : h.configured = true
  secret : h.tokenSecret ≠ []
  known : userId ≠ []
  plain : ∀ b ∈ userId, b ≠ point ∧ b ≠ 0 ∧ b ≠ quote ∧ b ≠ backslash
  format : token = userId ++ point :: h.computeTokenSignature hmac userId
  long : h.config.minTokenLength ≤ token.length
  notRevoked : h.isRevoked token = false
  fresh : h.config.tokenTtl > 0 → h.isExpired now token = false ∧ h.isExpired later token = false

/-- A token in the form that the configuration demands. -/
def credential (h : AuthenticationHandler) (token : Bytes) : Bytes :=
  if h.config.requireBearerPrefix then kBearerPrefix ++ token else token

variable {hmac : Bytes → Bytes → Digest} {h : AuthenticationHandler} {now later : Int}
variable {userId token : Bytes}

namespace Genuine

theorem point_notMem (ht : h.Genuine hmac now later userId token) : point ∉ userId :=
  fun hmem => (ht.plain point hmem).1 rfl

theorem ne_nil (ht : h.Genuine hmac now later userId token) : token ≠ [] := by
  rw [ht.format]
  exact List.append_ne_nil_of_right_ne_nil _ (List.cons_ne_nil _ _)

theorem notMem (ht : h.Genuine hmac now later userId token) {b : UInt8} (huser : b ∉ userId)
    (hb : b ∉ point :: (base64Chars ++ [0x3D])) : b ∉ token := by
  rw [List.mem_cons, not_or] at hb
  rw [ht.format, List.mem_append, List.mem_cons, not_or, not_or]
  exact ⟨huser, hb.1, notMem_computeTokenSignature hb.2 userId⟩

theorem zero_notMem (ht : h.Genuine hmac now later userId token) : 0 ∉ token :=
  ht.notMem (fun hmem => (ht.plain 0 hmem).2.1 rfl) (by decide)

theorem format_eq (ht : h.Genuine hmac now later userId token) :
    token = tokenOf hmac h.tokenSecret userId := by
  rw [ht.format, tokenOf, computeTokenSignature_eq ht.secret]

theorem revoked_notMem (ht : h.Genuine hmac now later userId token) : token ∉ h.revokedTokens := by
  have hrevoked := ht.notRevoked
  rwa [isRevoked, ← Bool.not_eq_true, List.contains_iff_mem] at hrevoked

end Genuine

/-- A token that itself begins with the prefix, and whose rest passes the first check. -/
structure BeginsBearer (h : AuthenticationHandler) (now : Int) (userId token : Bytes) : Prop where
  bearer : kBearerPrefix <+: userId
  long : h.config.minTokenLength ≤ (token.drop kBearerPrefixLen).length
  notRevoked : token.drop kBearerPrefixLen ∉ h.revokedTokens
  fresh : h.config.tokenTtl > 0 → h.isExpired now (token.drop kBearerPrefixLen) = false

/-- The first check on the bare token. -/
theorem Genuine.allowed_iff (ht : h.Genuine hmac now later userId token) :
    (h.validateRequest now token).allowed = true ↔
      (h.config.requireBearerPrefix = true → h.BeginsBearer now userId token) := by
  have hbegins : kBearerPrefix <+: token ↔ kBearerPrefix <+: userId := by
    rw [ht.format, prefix_append_cons_iff (by decide)]
  rw [validateRequest_allowed_iff, checkedToken, hbegins]
  cases hrequired : h.config.requireBearerPrefix with
  | false =>
      refine iff_of_true ⟨ht.configured, ht.ne_nil, Bool.noConfusion, ?_, ?_, ?_⟩ Bool.noConfusion
      · exact ⟨ht.long, ht.zero_notMem⟩
      · exact ht.revoked_notMem
      · exact fun httl => (ht.fresh httl).1
  | true =>
      rw [if_pos rfl]
      constructor
      · rintro ⟨-, -, hbearer, ⟨hlong, -⟩, hrevoked, hfresh⟩ -
        exact ⟨(hbearer rfl).1, hlong, hrevoked, hfresh⟩
      · intro hbears
        obtain ⟨hbearer, hlong, hrevoked, hfresh⟩ := hbears rfl
        have hzero : 0 ∉ token.drop kBearerPrefixLen :=
          fun hmem => ht.zero_notMem (List.mem_of_mem_drop hmem)
        refine ⟨ht.configured, ht.ne_nil, fun _ => ⟨hbearer, ?_⟩, ⟨hlong, hzero⟩, hrevoked, hfresh⟩
        have hlen := hbearer.length_le
        have hseven : kBearerPrefix.length = kBearerPrefixLen := rfl
        rw [ht.format, List.length_append, List.length_cons]
        omega

/-- The second check finds the user in the bare token and nowhere else. -/
theorem Genuine.decoded_iff (ht : h.Genuine hmac now later userId token) {header : Bytes} :
    h.decodeToken hmac later header = userId ↔ header = token := by
  rw [decodeToken_eq_iff ht.known]
  constructor
  · intro hnames
    rw [hnames.genuine, ht.format_eq]
  · rintro rfl
    exact ⟨ht.secret, ht.point_notMem, ht.format_eq, ht.revoked_notMem,
      fun httl => (ht.fresh httl).2⟩

/-- Both checks pass a header, for the right user. -/
theorem Genuine.authenticate_iff (ht : h.Genuine hmac now later userId token) {header : Bytes} :
    (∃ u, MCPAdapter.authenticate hmac h now later header = .ok u ∧ u.userId = userId) ↔
      header = token ∧ (h.config.requireBearerPrefix = true → h.BeginsBearer now userId token) := by
  simp only [MCPAdapter.authenticate_eq_ok]
  constructor
  · rintro ⟨u, ⟨hallowed, -, rfl⟩, hdecode⟩
    obtain rfl := ht.decoded_iff.mp hdecode
    exact ⟨rfl, ht.allowed_iff.mp hallowed⟩
  · rintro ⟨rfl, hbears⟩
    have hdecode := ht.decoded_iff.mpr rfl
    refine ⟨_, ⟨ht.allowed_iff.mpr hbears, ?_, rfl⟩, hdecode⟩
    rw [hdecode]
    exact ht.known

/-- The credential is the bare token where no prefix is demanded. -/
theorem credential_eq_iff : h.credential token = token ↔ h.config.requireBearerPrefix = false := by
  unfold credential
  cases h.config.requireBearerPrefix with
  | false => simp
  | true =>
      refine iff_of_false (fun heq => ?_) Bool.noConfusion
      have hlen := congrArg List.length heq
      have hseven : kBearerPrefix.length = 7 := rfl
      rw [if_pos rfl, List.length_append] at hlen
      omega

end AuthenticationHandler

/-- The first member that looks like the key and has a string, at any depth, has this one. -/
def ObjectText.FirstCarries (q : ObjectText) (key s : Bytes) : Prop :=
  ∃ m, (q.allMembers.find? fun m => StringMember key m) = some m ∧ m.value.string? = some s

namespace MCPAdapter

/-! ## From the params to the user -/

section presents

variable {σ : Type} (server : Server σ) (s : AdapterState σ) (msg : MCPMessage)

/-- The params of the request are an object in which `auth_token` is the header. -/
structure Presents (q : ObjectText) (header : Bytes) : Prop where
  inherited : server.extractAuthToken = none
  params : spanText msg msg.params = .ok q.text
  member : ∃ m ∈ q.members, m.name = ascii "auth_token" ∧ m.value.string? = some header

/-- The server has an `extract_auth_token` of its own, which finds the header. -/
structure Overrides (f : AdapterState σ → MCPMessage → Bytes × AdapterState σ)
    (header : Bytes) : Prop where
  overrides : server.extractAuthToken = some f
  header : (f s msg).1 = header
  handler : (f s msg).2.adapter.authHandler = s.adapter.authHandler

/-- The authentication step of `dispatch` lets the request pass as that of a user. -/
def PassesAs (hmac : Bytes → Bytes → Digest) (now later : Int) (userId : Bytes) : Prop :=
  ∃ header s₁ u, extractAuthToken server s msg = .ok (header, s₁) ∧
    authenticate hmac s₁.adapter.authHandler now later header = .ok u ∧ u.userId = userId

end presents

variable {σ : Type} {server : Server σ} {s s₁ : AdapterState σ} {msg : MCPMessage}
variable {hmac : Bytes → Bytes → Digest} {now later : Int} {userId header : Bytes}

theorem passesAs_of_extracted (hextract : extractAuthToken server s msg = .ok (header, s₁))
    (hhandler : s₁.adapter.authHandler = s.adapter.authHandler) :
    PassesAs server s msg hmac now later userId ↔
      ∃ u, authenticate hmac s.adapter.authHandler now later header = .ok u ∧
        u.userId = userId := by
  constructor
  · rintro ⟨header', s₂, u, hextract', hauthenticate, hu⟩
    rw [hextract] at hextract'
    cases hextract'
    rw [hhandler] at hauthenticate
    exact ⟨u, hauthenticate, hu⟩
  · rintro ⟨u, hauthenticate, hu⟩
    exact ⟨header, s₁, u, hextract, by rw [hhandler, hauthenticate], hu⟩

/-- What `dispatch` reads is the string of the first member that looks like `auth_token`. -/
theorem Presents.extracted {q : ObjectText} (h : Presents server msg q header)
    (s : AdapterState σ) : ∃ first, q.FirstCarries (ascii "auth_token") first ∧
      extractAuthToken server s msg = .ok (first, s) := by
  obtain ⟨m', hm', hname, hheader⟩ := h.member
  have hstring : m'.value.string?.isSome := by
    rw [hheader, Option.isSome_some]
  obtain ⟨m, hfind⟩ := ObjectText.find_of_top hm' hname (ObjectText.content_ne_none.mpr hstring)
  have hfirst := List.find?_some hfind
  obtain ⟨first, hvalue⟩ := Option.isSome_iff_exists.mp (of_decide_eq_true hfirst).2
  have hread : stringOf (ascii "auth_token") q.text =
      some ⟨first ++ quote :: m.rest, quote :: m.rest⟩ := by
    rw [q.stringOf_text ⟨by decide, by decide⟩, hfind, Option.bind_some, Placed.content, hvalue,
      Option.map_some]
  refine ⟨first, ⟨m, hfind, hvalue⟩, ?_⟩
  unfold extractAuthToken
  rw [h.inherited, defaultAuthToken, h.params, ok_bind, extractString_eq, hread, ok_bind]
  dsimp only [found]
  rw [if_pos rfl, Slice.text_span (stringOf_suffix hread), Slice.text_append]
  rfl

theorem firstCarries_unique {q : ObjectText} {key t u : Bytes} (ht : q.FirstCarries key t)
    (hu : q.FirstCarries key u) : t = u := by
  obtain ⟨m, hm, hstring⟩ := ht
  obtain ⟨m', hm', hstring'⟩ := hu
  rw [hm] at hm'
  cases hm'
  exact Option.some.inj (hstring.symm.trans hstring')

/-- A request with a genuine token under `auth_token` passes as its user exactly where the first
member that looks like that, at any depth, has the bare token, and either no prefix is demanded
or the token itself begins with one.  Through an `extract_auth_token` of the server it passes
exactly where no prefix is demanded. -/
theorem passesAs_iff (server : Server σ) (s : AdapterState σ) (msg : MCPMessage)
    (hmac : Bytes → Bytes → Digest) (now later : Int) {userId token : Bytes}
    (htoken : s.adapter.authHandler.Genuine hmac now later userId token) :
    (∀ q, Presents server msg q (s.adapter.authHandler.credential token) →
      (PassesAs server s msg hmac now later userId ↔
        q.FirstCarries (ascii "auth_token") token ∧
          (s.adapter.authHandler.config.requireBearerPrefix = true →
            s.adapter.authHandler.BeginsBearer now userId token))) ∧
    ∀ f, Overrides server s msg f (s.adapter.authHandler.credential token) →
      (PassesAs server s msg hmac now later userId ↔
        s.adapter.authHandler.config.requireBearerPrefix = false) := by
  constructor
  · intro q hpresents
    obtain ⟨first, hfirst, hextract⟩ := hpresents.extracted s
    rw [passesAs_of_extracted hextract rfl, htoken.authenticate_iff]
    refine and_congr_left fun _ => ⟨?_, firstCarries_unique hfirst⟩
    rintro rfl
    exact hfirst
  · rintro f ⟨hserver, hheader, hhandler⟩
    have hextract : extractAuthToken server s msg =
        .ok (s.adapter.authHandler.credential token, (f s msg).2) := by
      rw [extractAuthToken, hserver, ← hheader]
      rfl
    rw [passesAs_of_extracted hextract hhandler, htoken.authenticate_iff,
      AuthenticationHandler.credential_eq_iff]
    refine and_iff_left_of_imp fun hbare hrequired => ?_
    exact absurd (hbare.symm.trans hrequired) Bool.false_ne_true

theorem genuine_aliceToken (requireBearerPrefix : Bool) :
    (guardedState requireBearerPrefix).adapter.authHandler.Genuine secretHmac 0 0
      (ascii "alice") aliceToken where
  configured := rfl
  secret := List.cons_ne_nil _ _
  known := List.cons_ne_nil _ _
  plain := by decide +kernel
  format := by revert requireBearerPrefix; decide +kernel
  long := by revert requireBearerPrefix; decide +kernel
  notRevoked := rfl
  fresh := fun _ => ⟨rfl, rfl⟩

theorem plain_authToken : (ascii "auth_token").all isStrChar := by decide

theorem plain_tool : (ascii "t").all isStrChar := by decide

/-- The params of `callLine`. -/
def callParams (header : Bytes) (h : header.all isStrChar) : ObjectText :=
  let key (s : Bytes) (h : s.all isStrChar) : Label .object := .key (.plain s h) .none .none
  ⟨.none, .container .object (.more .none (key (ascii "auth_token") plain_authToken)
    (.string (.plain header h)) .none (.last .none (key (ascii "name") ObjectText.plain_name)
      (.string (.plain (ascii "t") plain_tool)) .none)), .none, rfl⟩

theorem presents_callMessage {header : Bytes} (h : header.all isStrChar)
    (htext : spanText (callMessage header) (callMessage header).params =
      .ok (callParams header h).text) :
    Presents (Server.base Unit) (callMessage header) (callParams header h) header where
  inherited := rfl
  params := htext
  member := ⟨_, List.mem_cons_self, Str.plain_text _ plain_authToken,
    congrArg some (Str.plain_text header h)⟩

theorem firstCarries_callParams {header : Bytes} (h : header.all isStrChar) :
    (callParams header h).FirstCarries (ascii "auth_token") header := by
  have hfirst : ∃ m ms, (callParams header h).allMembers = m :: ms ∧
      m.name = ascii "auth_token" ∧ m.value.string? = some header :=
    ⟨_, _, rfl, Str.plain_text _ plain_authToken, congrArg some (Str.plain_text header h)⟩
  obtain ⟨m, ms, hms, hname, hstring⟩ := hfirst
  refine ⟨m, ?_, hstring⟩
  rw [hms, List.find?_cons_of_pos]
  rw [decide_eq_true_eq, StringMember, hstring]
  exact ⟨.inl hname, rfl⟩

theorem plain_aliceToken : aliceToken.all isStrChar := by decide

theorem passesAs_of_alice :
    PassesAs (Server.base Unit) (guardedState false) (callMessage aliceToken) secretHmac 0 0
      (ascii "alice") :=
  ((passesAs_iff (Server.base Unit) (guardedState false) (callMessage aliceToken) secretHmac 0 0
    (genuine_aliceToken false)).1 (callParams aliceToken plain_aliceToken)
      (presents_callMessage plain_aliceToken (by decide +kernel))).mpr
    ⟨firstCarries_callParams plain_aliceToken, Bool.noConfusion⟩

theorem plain_prefixedToken : (kBearerPrefix ++ aliceToken).all isStrChar := by decide

/-- Where a prefix is demanded, alice is refused with it. -/
theorem not_passesAs_prefixed :
    ∃ msg q, MCPMessage.parse (some (callLine (kBearerPrefix ++ aliceToken))) kDefaultMaxBytes =
        .ok msg ∧ msg.valid = true ∧
      (guardedState true).adapter.authHandler.Genuine secretHmac 0 0 (ascii "alice") aliceToken ∧
      Presents (Server.base Unit) msg q
        ((guardedState true).adapter.authHandler.credential aliceToken) ∧
      ¬ PassesAs (Server.base Unit) (guardedState true) msg secretHmac 0 0 (ascii "alice") := by
  refine ⟨callMessage (kBearerPrefix ++ aliceToken), callParams _ plain_prefixedToken,
    by decide +kernel, rfl, genuine_aliceToken true,
    presents_callMessage plain_prefixedToken (by decide +kernel), ?_⟩
  rintro ⟨header, s₁, u, hextract, hauthenticate, -⟩
  have hread : (extractAuthToken (Server.base Unit) (guardedState true)
      (callMessage (kBearerPrefix ++ aliceToken))).toOption.map (fun r =>
        (authenticate secretHmac r.2.adapter.authHandler 0 0 r.1).toOption.isSome) =
      some false := by
    decide +kernel
  rw [hextract] at hread
  have hnone := Option.some.inj hread
  dsimp only at hnone
  rw [hauthenticate] at hnone
  cases hnone

end MCPAdapter

end McpToolkit
