import McpToolkit.Base.Runs
import McpToolkit.Session.Manager
/-!
# The life of a session

Whether a session is valid is a question about the past alone: it was issued, it has
not been ended since, and it is neither too old nor idle for too long.  The store of
the manager holds exactly the sessions that the past leaves alive.
-/

namespace McpToolkit

/-- A call and what it returned. -/
abbrev SessionRecord := SessionCall × Option SessionResult

namespace SessionRecord

/-- A session was issued, bound to a user agent if that is not empty. -/
def Issues (e : SessionRecord) (s agent : Bytes) : Prop :=
  match e with
  | (⟨_, .createAnonymous _⟩, some r) => r.valid = true ∧ r.sessionId = s ∧ agent = []
  | (⟨_, .login _ _ _ userAgent⟩, some r) => r.valid = true ∧ r.sessionId = s ∧ agent = userAgent
  | _ => False

/-- A logout, a successful login that gives the session up, or a failed validation. -/
def Ends (e : SessionRecord) (s : Bytes) : Prop :=
  match e with
  | (⟨_, .logout t⟩, _) => t = s
  | (⟨_, .login _ oldSessionId _ _⟩, some r) => r.valid = true ∧ oldSessionId = s
  | (⟨_, .validate t _⟩, some r) => r.valid = false ∧ t = s
  | _ => False

/-- A successful validation. -/
def refreshes (e : SessionRecord) (s : Bytes) : Bool :=
  match e with
  | (⟨_, .validate t _⟩, some r) => r.valid && t = s
  | _ => false

/-- A successful login for which the session was given up. -/
def GivesUp (e : SessionRecord) (s : Bytes) : Prop :=
  match e with
  | (⟨_, .login _ oldSessionId _ _⟩, some r) => r.valid = true ∧ oldSessionId = s
  | _ => False

theorem GivesUp.ends {e : SessionRecord} {s : Bytes} (h : e.GivesUp s) : e.Ends s := by
  unfold GivesUp at h
  split at h
  · exact h
  · exact h.elim

def isPurge (e : SessionRecord) : Bool :=
  match e with
  | (⟨_, .purgeExpired⟩, _) => true
  | _ => false

end SessionRecord

open SessionRecord

/-- The configuration in force. -/
def configIn (past : List SessionRecord) : SessionConfig :=
  past.foldl (fun config e =>
    match e with
    | (⟨_, .configure config⟩, _) => config
    | _ => config) {}

/-- The manager has been configured. -/
def ConfiguredIn (past : List SessionRecord) : Prop :=
  ∃ e ∈ past, ∃ config, e.1.op = .configure config

/-- Both timeouts can be counted in nanoseconds. -/
def SessionConfig.Fits (config : SessionConfig) : Prop :=
  FitsInt64 (config.idleTimeout * 1000000000) ∧ FitsInt64 (config.absoluteTtl * 1000000000)

theorem fits_configIn {past : List SessionRecord}
    (h : ∀ e ∈ past, ∀ config, e.1.op = .configure config → config.Fits) :
    (configIn past).Fits := by
  induction past using List.reverseRecOn with
  | nil => exact ⟨by decide, by decide⟩
  | append_singleton past e ih =>
      rw [List.forall_mem_append] at h
      obtain ⟨⟨now, op⟩, r⟩ := e
      rw [configIn, List.foldl_append]
      cases op with
      | configure config => exact h.2 _ (List.mem_singleton_self _) config rfl
      | _ => exact ih h.1

/-- The time of the last successful validation of a session, or else of its creation. -/
def lastUse (s : Bytes) (created : Int) (since : List SessionRecord) : Int :=
  since.foldl (fun last e => if e.refreshes s then e.1.now else last) created

/-- A session has been idle for too long, or is too old, as the manager reckons it. -/
def Outlived (config : SessionConfig) (created last now : Int) : Prop :=
  now - last > nanoseconds config.idleTimeout ∨ now - created > nanoseconds config.absoluteTtl

/-- A session that was issued has not been ended since, nor has a purge found it expired. -/
def Lasts (before : List SessionRecord) (e : SessionRecord) (since : List SessionRecord)
    (s : Bytes) : Prop :=
  (∀ d ∈ since, ¬ d.Ends s) ∧
    ∀ upTo d, upTo ++ [d] <+: since → d.isPurge = true →
      ¬ Outlived (configIn (before ++ e :: upTo)) e.1.now (lastUse s e.1.now upTo) d.1.now

/-- A session was issued and is not over yet. -/
def Alive (past : List SessionRecord) (s agent : Bytes) (created last : Int) : Prop :=
  ∃ before e since, past = before ++ e :: since ∧ e.Issues s agent ∧ e.1.now = created ∧
    lastUse s created since = last ∧ Lasts before e since s

theorem lastUse_concat (s : Bytes) (created : Int) (since : List SessionRecord)
    (e : SessionRecord) : lastUse s created (since ++ [e]) =
      if e.refreshes s then e.1.now else lastUse s created since := by
  rw [lastUse, List.foldl_append]
  rfl

/-- As time does not run backwards, the last use is the latest one. -/
theorem lastUse_concat_eq_max {s : Bytes} {created : Int} {since : List SessionRecord}
    {e : SessionRecord} (hcreated : created ≤ e.1.now) (hsince : ∀ d ∈ since, d.1.now ≤ e.1.now) :
    lastUse s created (since ++ [e]) =
      if e.refreshes s then max (lastUse s created since) e.1.now else lastUse s created since := by
  have hle : lastUse s created since ≤ e.1.now := by
    induction since using List.reverseRecOn with
    | nil => exact hcreated
    | append_singleton since d ih =>
        rw [List.forall_mem_append] at hsince
        rw [lastUse_concat]
        split_ifs
        · exact hsince.2 d (by simp)
        · exact ih hsince.1
  rw [lastUse_concat, max_eq_right hle]

/-- One more call: it issues the session, or it leaves the session alive. -/
theorem alive_concat {past : List SessionRecord} {e : SessionRecord} {s agent : Bytes}
    {created last : Int} : Alive (past ++ [e]) s agent created last ↔
      (e.Issues s agent ∧ e.1.now = created ∧ last = created) ∨
      ∃ last', Alive past s agent created last' ∧ ¬ e.Ends s ∧
        (e.isPurge = true → ¬ Outlived (configIn past) created last' e.1.now) ∧
        last = if e.refreshes s then e.1.now else last' := by
  constructor
  · rintro ⟨before, x, since, hpast, hissues, hcreated, hlast, hends, hpurges⟩
    rcases List.eq_nil_or_concat' since with rfl | ⟨since, d, rfl⟩
    · obtain ⟨rfl, hx⟩ := List.append_inj' hpast rfl
      cases hx
      exact .inl ⟨hissues, hcreated, hlast.symm⟩
    · rw [← List.cons_append, ← List.append_assoc] at hpast
      obtain ⟨rfl, hd⟩ := List.append_inj' hpast rfl
      cases hd
      rw [lastUse_concat] at hlast
      rw [List.forall_mem_append] at hends
      subst hcreated
      refine .inr ⟨lastUse s x.1.now since, ⟨before, x, since, rfl, hissues, rfl, rfl, hends.1, ?_⟩,
        hends.2 e (by simp), hpurges since e (List.prefix_refl _), hlast.symm⟩
      intro upTo d' hbegins
      exact hpurges upTo d' (hbegins.trans (List.prefix_append _ _))
  · rintro (⟨hissues, hcreated, rfl⟩ | ⟨last', halive, hend, hpurge, rfl⟩)
    · refine ⟨past, e, [], rfl, hissues, hcreated, rfl, List.forall_mem_nil _, ?_⟩
      intro upTo d hbegins
      simp at hbegins
    · obtain ⟨before, x, since, rfl, hissues, rfl, rfl, hends, hpurges⟩ := halive
      refine ⟨before, x, since ++ [e], by simp, hissues, rfl, lastUse_concat s x.1.now since e,
        ?_, ?_⟩
      · rw [List.forall_mem_append]
        exact ⟨hends, by simpa using hend⟩
      · intro upTo d hbegins
        rcases List.prefix_concat_iff.mp hbegins with heq | hbegins
        · obtain ⟨rfl, hd⟩ := List.append_inj' heq rfl
          cases hd
          exact hpurge
        · exact hpurges upTo d hbegins

theorem Alive.issued {past : List SessionRecord} {s agent : Bytes} {created last : Int}
    (h : Alive past s agent created last) : ∃ e ∈ past, e.Issues s agent := by
  obtain ⟨before, e, since, rfl, hissues, -⟩ := h
  exact ⟨e, by simp, hissues⟩

/-! ## The store -/

namespace SessionManager

/-- The store has the session, with these data. -/
def Holds (sessions : Table Bytes SessionData) (s agent : Bytes) (created last : Int) : Prop :=
  ∃ d, sessions.lookup s = some d ∧ d.userAgent = agent ∧ d.createdAt = created ∧
    d.lastActive = last

theorem isExpired_iff {m : SessionManager} {now : Int} {d : SessionData} :
    m.isExpired now d = true ↔ Outlived m.config d.createdAt d.lastActive now := by
  unfold isExpired Outlived
  simp only [Bool.or_eq_true, decide_eq_true_eq]

theorem holds_insert {t : Table Bytes SessionData} {id s agent : Bytes} {d : SessionData}
    {created last : Int} : Holds (t.insert id d) s agent created last ↔
      s = id ∧ d.userAgent = agent ∧ d.createdAt = created ∧ d.lastActive = last ∨
        s ≠ id ∧ Holds t s agent created last := by
  unfold Holds
  rw [Table.lookup_insert_eq]
  by_cases hs : s = id
  · simp [hs]
  · simp [hs]

theorem holds_erase {t : Table Bytes SessionData} {id s agent : Bytes} {created last : Int} :
    Holds (t.erase id) s agent created last ↔ s ≠ id ∧ Holds t s agent created last := by
  unfold Holds
  rw [Table.lookup_erase_eq]
  by_cases hs : s = id
  · simp [hs]
  · simp [hs]

theorem holds_purgeExpired {m : SessionManager} {now : Int} {s agent : Bytes}
    {created last : Int} : Holds (m.purgeExpired now).sessions s agent created last ↔
      Holds m.sessions s agent created last ∧ ¬ Outlived m.config created last now := by
  unfold Holds purgeExpired
  rw [Table.lookup_eraseIf]
  constructor
  · rintro ⟨d, hd, rfl, rfl, rfl⟩
    obtain ⟨hlookup, hexpired⟩ := Option.filter_eq_some_iff.mp hd
    rw [← isExpired_iff]
    exact ⟨⟨d, hlookup, rfl, rfl, rfl⟩, by simpa using hexpired⟩
  · rintro ⟨⟨d, hlookup, rfl, rfl, rfl⟩, hexpired⟩
    rw [← isExpired_iff] at hexpired
    exact ⟨d, Option.filter_eq_some_iff.mpr ⟨hlookup, by simpa using hexpired⟩, rfl, rfl, rfl⟩

/-- A call issues the sessions that the store gets, and takes from it those that it ends
or, as a purge, finds expired. -/
def Carries (m : SessionManager) (e : SessionRecord) (m' : SessionManager) : Prop :=
  ∀ s agent created last, Holds m'.sessions s agent created last ↔
    (e.Issues s agent ∧ e.1.now = created ∧ last = created) ∨
    ∃ last', Holds m.sessions s agent created last' ∧ ¬ e.Ends s ∧
      (e.isPurge = true → ¬ Outlived m.config created last' e.1.now) ∧
      last = if e.refreshes s then e.1.now else last'

variable {m : SessionManager} {now : Int}

/-- A manager that was never configured has no sessions. -/
def Sound (m : SessionManager) : Prop := m.configured = false → ∀ s, m.sessions.lookup s = none

theorem Sound.not_holds (h : m.Sound) (hconfigured : m.configured = false) {s agent : Bytes}
    {created last : Int} : ¬ Holds m.sessions s agent created last := by
  rintro ⟨d, hd, -⟩
  rw [h hconfigured s] at hd
  cases hd

theorem Holds.lookup_ne_none {t : Table Bytes SessionData} {s agent : Bytes}
    {created last : Int} (h : Holds t s agent created last) : t.lookup s ≠ none := by
  obtain ⟨d, hd, -⟩ := h
  simp [hd]

theorem createAnonymous_carries (source : RandomSource)
    (hfresh : m.configured = true → m.sessions.lookup (m.generateId source) = none) :
    m.Carries (⟨now, .createAnonymous source⟩, some (m.createAnonymous source now).1)
      (m.createAnonymous source now).2 := by
  intro s agent created last
  cases hconfigured : m.configured with
  | false => simp [createAnonymous_unconfigured hconfigured, Issues, Ends, refreshes, isPurge,
      notConfigured]
  | true =>
      rw [createAnonymous_configured hconfigured, holds_insert]
      simp only [Issues, Ends, refreshes, isPurge]
      constructor
      · rintro (⟨rfl, rfl, rfl, rfl⟩ | ⟨hs, hholds⟩)
        · simp
        · simp [hholds]
      · rintro (⟨⟨-, rfl, rfl⟩, rfl, rfl⟩ | ⟨last', hholds, -, -, hlast⟩)
        · simp
        · have hs : s ≠ m.generateId source := by
            rintro rfl
            exact hholds.lookup_ne_none (hfresh hconfigured)
          have hlast' : last = last' := by simpa using hlast
          exact .inr ⟨hs, by rwa [hlast']⟩

theorem login_carries (source : RandomSource) (old userId userAgent : Bytes)
    (hfresh : m.configured = true → userId ≠ [] →
      m.sessions.lookup (m.generateId source) = none ∨ old = m.generateId source) :
    m.Carries (⟨now, .login source old userId userAgent⟩,
      some (m.login source old userId userAgent now).1)
      (m.login source old userId userAgent now).2 := by
  intro s agent created last
  by_cases hrefused : m.configured = false ∨ userId = []
  · obtain ⟨hvalid, hm⟩ := login_refused source old hrefused userAgent now
    simp [hvalid, hm, Issues, Ends, refreshes, isPurge]
  · rw [not_or, Bool.not_eq_false] at hrefused
    rw [login_accepted hrefused.1 source old hrefused.2, holds_insert, holds_erase]
    simp only [Issues, Ends, refreshes, isPurge]
    constructor
    · rintro (⟨rfl, rfl, rfl, rfl⟩ | ⟨hs, hold, hholds⟩)
      · simp
      · simp [hholds, Ne.symm hold]
    · rintro (⟨⟨-, rfl, rfl⟩, rfl, rfl⟩ | ⟨last', hholds, hold, -, hlast⟩)
      · simp
      · have hold : old ≠ s := by simpa using hold
        have hs : s ≠ m.generateId source := by
          rintro rfl
          rcases hfresh hrefused.1 hrefused.2 with hnone | hsame
          · exact hholds.lookup_ne_none hnone
          · exact hold hsame
        have hlast' : last = last' := by simpa using hlast
        exact .inr ⟨hs, hold.symm, by rwa [hlast']⟩

theorem validate_carries (hsound : m.Sound) (t userAgent : Bytes) :
    m.Carries (⟨now, .validate t userAgent⟩, some (m.validate t userAgent now).1)
      (m.validate t userAgent now).2 := by
  intro s agent created last
  by_cases hrefused : m.configured = false ∨ m.sessions.lookup t = none
  · obtain ⟨hvalid, hm⟩ := validate_refused t userAgent now hrefused
    have hnone : ∀ last', Holds m.sessions s agent created last' → t ≠ s := by
      rintro last' hholds rfl
      rcases hrefused with h | h
      · exact hsound.not_holds h hholds
      · exact hholds.lookup_ne_none h
    simp only [hvalid, hm, Issues, Ends, refreshes, isPurge]
    constructor
    · intro hholds
      simp [hholds, hnone last hholds]
    · rintro (⟨hissues, -⟩ | ⟨last', hholds, -, -, hlast⟩)
      · exact hissues.elim
      · have hlast' : last = last' := by simpa using hlast
        rwa [hlast']
  · rw [not_or, Bool.not_eq_false] at hrefused
    obtain ⟨d, hd⟩ := Option.ne_none_iff_exists'.mp hrefused.2
    by_cases hend : m.isExpired now d = true ∨ m.mismatches d userAgent = true
    · obtain ⟨hvalid, hm⟩ := validate_ended hrefused.1 hd userAgent now hend
      rw [hm, holds_erase]
      simp [hvalid, Issues, Ends, refreshes, isPurge, and_comm, eq_comm]
    · rw [not_or, Bool.not_eq_true, Bool.not_eq_true] at hend
      rw [validate_accepted hrefused.1 hd userAgent now hend.1 hend.2, holds_insert]
      simp only [Issues, Ends, refreshes, isPurge]
      constructor
      · rintro (⟨rfl, rfl, rfl, rfl⟩ | ⟨hs, hholds⟩)
        · have hholds : Holds m.sessions s d.userAgent d.createdAt d.lastActive :=
            ⟨d, hd, rfl, rfl, rfl⟩
          exact .inr ⟨d.lastActive, hholds, by simp, by simp, by simp⟩
        · simp [hholds, Ne.symm hs]
      · rintro (⟨hissues, -⟩ | ⟨last', hholds, -, -, hlast⟩)
        · exact hissues.elim
        · by_cases hs : t = s
          · have hlast' : last = now := by simpa [hs] using hlast
            obtain ⟨d', hd', rfl, rfl, rfl⟩ := hholds
            rw [← hs, hd] at hd'
            cases hd'
            exact .inl ⟨hs.symm, rfl, rfl, hlast'.symm⟩
          · have hlast' : last = last' := by simpa [hs] using hlast
            exact .inr ⟨Ne.symm hs, by rwa [hlast']⟩

/-- Every call does to the store what its record says, if a session that it issues is new or
takes the place of the one that it gives up. -/
theorem step_carries (hsound : m.Sound) (c : SessionCall)
    (hfresh : ∀ s agent, Issues (c, (m.step c).1) s agent →
      m.sessions.lookup s = none ∨ GivesUp (c, (m.step c).1) s) :
    m.Carries (c, (m.step c).1) (m.step c).2 := by
  obtain ⟨now, op⟩ := c
  cases op with
  | configure config =>
      intro s agent created last
      simp [step, configure, Holds, Issues, Ends, refreshes, isPurge]
  | createAnonymous source =>
      refine createAnonymous_carries source fun hconfigured => ?_
      refine (hfresh _ [] ?_).resolve_right id
      simp [step, createAnonymous_configured hconfigured, Issues]
  | login source old userId userAgent =>
      refine login_carries source old userId userAgent fun hconfigured huser => ?_
      refine (hfresh _ userAgent ?_).imp_right And.right
      simp [step, login_accepted hconfigured source old huser, Issues]
  | validate t userAgent => exact validate_carries hsound t userAgent
  | logout t =>
      intro s agent created last
      change Holds (m.sessions.erase t) s agent created last ↔ _
      rw [holds_erase]
      simp [Issues, Ends, refreshes, isPurge, and_comm, eq_comm]
  | purgeExpired =>
      intro s agent created last
      change Holds (m.purgeExpired now).sessions s agent created last ↔ _
      rw [holds_purgeExpired]
      simp [Issues, Ends, refreshes, isPurge]

/-- Only `configure` changes the configuration. -/
theorem step_frame (m : SessionManager) {c : SessionCall}
    (hop : ∀ config, c.op ≠ .configure config) :
    (m.step c).2.config = m.config ∧ (m.step c).2.configured = m.configured := by
  obtain ⟨now, op⟩ := c
  cases op with
  | configure config => exact absurd rfl (hop config)
  | createAnonymous source =>
      change (m.createAnonymous source now).2.config = m.config ∧
        (m.createAnonymous source now).2.configured = m.configured
      unfold createAnonymous
      split_ifs <;> exact ⟨rfl, rfl⟩
  | login source old userId userAgent =>
      change (m.login source old userId userAgent now).2.config = m.config ∧
        (m.login source old userId userAgent now).2.configured = m.configured
      unfold login
      split_ifs <;> exact ⟨rfl, rfl⟩
  | validate t userAgent =>
      change (m.validate t userAgent now).2.config = m.config ∧
        (m.validate t userAgent now).2.configured = m.configured
      unfold validate
      cases m.sessions.lookup t with
      | none => split_ifs <;> exact ⟨rfl, rfl⟩
      | some d =>
          dsimp only
          split_ifs <;> exact ⟨rfl, rfl⟩
  | logout t => exact ⟨rfl, rfl⟩
  | purgeExpired => exact ⟨rfl, rfl⟩

theorem SessionOp.configure_or (op : SessionOp) :
    (∃ config, op = .configure config) ∨ ∀ config, op ≠ .configure config := by
  cases op with
  | configure config => exact .inl ⟨config, rfl⟩
  | _ => exact .inr fun _ => SessionOp.noConfusion

theorem step_sound (hsound : m.Sound) (c : SessionCall) : (m.step c).2.Sound := by
  intro hafter
  have hbefore : m.configured = false := by
    rcases SessionOp.configure_or c.op with ⟨config, hop⟩ | hop
    · rw [step, hop] at hafter
      cases hafter
    · rwa [← (m.step_frame hop).2]
  have hnone := hsound hbefore
  obtain ⟨now, op⟩ := c
  intro s
  cases op with
  | configure config => cases hafter
  | createAnonymous source =>
      change (m.createAnonymous source now).2.sessions.lookup s = none
      rw [createAnonymous_unconfigured hbefore, hnone]
  | login source old userId userAgent =>
      change (m.login source old userId userAgent now).2.sessions.lookup s = none
      rw [(login_refused source old (.inl hbefore) userAgent now).2, hnone]
  | validate t userAgent =>
      change (m.validate t userAgent now).2.sessions.lookup s = none
      rw [(validate_refused t userAgent now (.inl hbefore)).2, hnone]
  | logout t =>
      change (m.sessions.erase t).lookup s = none
      rw [Table.lookup_erase_eq, hnone, ite_self]
  | purgeExpired =>
      change (m.sessions.eraseIf _).lookup s = none
      rw [Table.lookup_eraseIf, hnone, Option.filter_none]

theorem step_config {past : List SessionRecord} (h : m.config = configIn past) (c : SessionCall) :
    (m.step c).2.config = configIn (past ++ [(c, (m.step c).1)]) := by
  rw [configIn, List.foldl_append, ← configIn, ← h]
  obtain ⟨now, op⟩ := c
  cases op with
  | configure config => rfl
  | _ => exact (m.step_frame fun _ => SessionOp.noConfusion).1

theorem step_configured {past : List SessionRecord} (h : m.configured = true ↔ ConfiguredIn past)
    (c : SessionCall) : (m.step c).2.configured = true ↔
      ConfiguredIn (past ++ [(c, (m.step c).1)]) := by
  have hlast : ConfiguredIn (past ++ [(c, (m.step c).1)]) ↔
      ConfiguredIn past ∨ ∃ config, c.op = .configure config := by
    simp [ConfiguredIn, or_and_right, exists_or]
  rw [hlast, ← h]
  rcases SessionOp.configure_or c.op with ⟨config, hop⟩ | hop
  · rw [step, hop]
    exact iff_of_true rfl (.inr ⟨config, rfl⟩)
  · rw [(m.step_frame hop).2, or_iff_left (not_exists.mpr hop)]

end SessionManager

/-! ## Runs -/

/-- Time does not run backwards, and no id is returned twice. -/
def Orderly (past : List SessionRecord) (m : SessionManager) (c : SessionCall) : Prop :=
  (∀ e ∈ past, e.1.now ≤ c.now) ∧
    ∀ s agent, Issues (c, (m.step c).1) s agent → ∀ e ∈ past, ∀ agent', ¬ e.Issues s agent'

/-- The manager after calls in order. -/
abbrev SessionRuns : List SessionRecord → SessionManager → Prop :=
  Machine.Runs SessionManager.step Orderly {}

/-- What a manager knows of its past. -/
structure Tracks (past : List SessionRecord) (m : SessionManager) : Prop where
  config : m.config = configIn past
  configured : m.configured = true ↔ ConfiguredIn past
  sound : m.Sound
  sessions : ∀ s agent created last,
    SessionManager.Holds m.sessions s agent created last ↔ Alive past s agent created last

variable {past : List SessionRecord} {m : SessionManager}

theorem Tracks.start : Tracks [] {} where
  config := rfl
  configured := by simp [ConfiguredIn]
  sound _ s := AList.lookup_empty s
  sessions s agent created last := by
    refine iff_of_false ?_ ?_
    · rintro ⟨d, hd, -⟩
      cases hd
    · intro halive
      obtain ⟨e, he, -⟩ := halive.issued
      cases he

theorem Tracks.next (h : Tracks past m) (c : SessionCall)
    (hfresh : ∀ s agent, Issues (c, (m.step c).1) s agent →
      m.sessions.lookup s = none ∨ GivesUp (c, (m.step c).1) s) :
    Tracks (past ++ [(c, (m.step c).1)]) (m.step c).2 where
  config := SessionManager.step_config h.config c
  configured := SessionManager.step_configured h.configured c
  sound := SessionManager.step_sound h.sound c
  sessions s agent created last := by
    rw [SessionManager.step_carries h.sound c hfresh, alive_concat, h.config]
    simp only [h.sessions]

theorem Tracks.of_runs (h : SessionRuns past m) : Tracks past m := by
  induction h with
  | start => exact .start
  | @next past m c _ horderly ih =>
      refine ih.next c fun s agent hissues => .inl ?_
      by_contra hne
      obtain ⟨d, hd⟩ := Option.ne_none_iff_exists'.mp hne
      obtain ⟨e, he, hissued⟩ := ((ih.sessions _ _ _ _).mp ⟨d, hd, rfl, rfl, rfl⟩).issued
      exact horderly.2 s agent hissues e he _ hissued

/-- The calls do not issue the same id. -/
def Distinct (e e' : SessionRecord) : Prop :=
  ∀ s agent agent', e.Issues s agent → ¬ e'.Issues s agent'

instance : Std.Symm Distinct where
  symm _ _ h s agent agent' he' he := h s agent' agent he he'

theorem distinct_of_runs (h : SessionRuns past m) : past.Pairwise Distinct := by
  induction h with
  | start => exact .nil
  | next c _ horderly ih =>
      refine List.pairwise_append.mpr ⟨ih, List.pairwise_singleton _ _, ?_⟩
      intro e he e' he' s agent agent' hissues hissues'
      rw [List.mem_singleton.mp he'] at hissues'
      exact horderly.2 s agent' hissues' e he agent hissues

/-- The issue of a session that is alive is the only one with its id. -/
theorem Alive.created_eq (hdistinct : past.Pairwise Distinct) {s agent agent' : Bytes}
    {created last : Int} (h : Alive past s agent created last) {e : SessionRecord}
    (he : e ∈ past) (hissues : e.Issues s agent') : e.1.now = created := by
  obtain ⟨before, x, since, rfl, hx, rfl, -⟩ := h
  by_contra hne
  have hex : e ≠ x := by
    rintro rfl
    exact hne rfl
  exact hdistinct.forall he (by simp) hex s agent' agent hissues hx

/-- A session that was given up in a login after its issue is not alive. -/
theorem not_alive_of_givesUp (hdistinct : past.Pairwise Distinct) {s agent agent' : Bytes}
    {created last : Int} {before after : List SessionRecord} {e x : SessionRecord}
    (hpast : past = before ++ e :: after) (hgives : e.GivesUp s) (hx : x ∈ before)
    (hissues : x.Issues s agent) : ¬ Alive past s agent' created last := by
  rintro ⟨before', x', since, hpast', hissues', -, -, hends, -⟩
  have hlater : ∀ l r : List SessionRecord, past = l ++ x' :: r → x ∉ l := by
    rintro l r rfl hmem
    exact (List.pairwise_append.mp hdistinct).2.2 x hmem x' (by simp) s agent agent' hissues hissues'
  have hsplit : before ++ e :: after = before' ++ x' :: since := hpast.symm.trans hpast'
  rcases List.append_eq_append_iff.mp hsplit with ⟨l, rfl, -⟩ | ⟨l, rfl, hrest⟩
  · exact hlater _ since hpast' (List.mem_append_left l hx)
  · cases l with
    | nil =>
        rw [List.append_nil] at hx
        exact hlater _ since hpast' hx
    | cons y l =>
        obtain ⟨rfl, rfl⟩ := List.cons.inj hrest
        exact hends e (by simp) hgives.ends

theorem Tracks.validate_valid (h : Tracks past m) (now : Int) (s userAgent : Bytes) :
    (m.validate s userAgent now).1.valid = true ↔
      ∃ agent created last, Alive past s agent created last ∧
        now - created ≤ nanoseconds (configIn past).absoluteTtl ∧
        now - last ≤ nanoseconds (configIn past).idleTimeout ∧
        ((configIn past).bindUserAgent = false ∨ agent = [] ∨ agent = userAgent) := by
  rw [← h.config]
  simp only [← h.sessions]
  by_cases hrefused : m.configured = false ∨ m.sessions.lookup s = none
  · refine iff_of_false (by simp [(SessionManager.validate_refused s userAgent now hrefused).1]) ?_
    rintro ⟨agent, created, last, hholds, -⟩
    rcases hrefused with hconfigured | hnone
    · exact h.sound.not_holds hconfigured hholds
    · exact hholds.lookup_ne_none hnone
  · rw [not_or, Bool.not_eq_false] at hrefused
    obtain ⟨d, hd⟩ := Option.ne_none_iff_exists'.mp hrefused.2
    have hholds : ∀ agent created last, SessionManager.Holds m.sessions s agent created last ↔
        d.userAgent = agent ∧ d.createdAt = created ∧ d.lastActive = last := by
      intro agent created last
      simp [SessionManager.Holds, hd]
    have hmismatch : m.mismatches d userAgent = false ↔
        m.config.bindUserAgent = false ∨ d.userAgent = [] ∨ d.userAgent = userAgent := by
      simp [SessionManager.mismatches, or_iff_not_imp_left]
    have hexpired : m.isExpired now d = false ↔
        now - d.lastActive ≤ nanoseconds m.config.idleTimeout ∧
          now - d.createdAt ≤ nanoseconds m.config.absoluteTtl := by
      rw [← Bool.not_eq_true, SessionManager.isExpired_iff, Outlived]
      omega
    have hvalid : (m.validate s userAgent now).1.valid = true ↔
        m.isExpired now d = false ∧ m.mismatches d userAgent = false := by
      by_cases hend : m.isExpired now d = true ∨ m.mismatches d userAgent = true
      · rw [(SessionManager.validate_ended hrefused.1 hd userAgent now hend).1]
        refine iff_of_false Bool.false_ne_true ?_
        rintro ⟨hexpired, hmismatch⟩
        rcases hend with h | h
        · exact Bool.false_ne_true (hexpired.symm.trans h)
        · exact Bool.false_ne_true (hmismatch.symm.trans h)
      · rw [not_or, Bool.not_eq_true, Bool.not_eq_true] at hend
        rw [SessionManager.validate_accepted hrefused.1 hd userAgent now hend.1 hend.2]
        exact iff_of_true rfl hend
    rw [hvalid, hexpired, hmismatch]
    constructor
    · rintro ⟨⟨hidle, hage⟩, hagent⟩
      exact ⟨_, _, _, (hholds _ _ _).mpr ⟨rfl, rfl, rfl⟩, hage, hidle, hagent⟩
    · rintro ⟨agent, created, last, hlookup, hage, hidle, hagent⟩
      obtain ⟨rfl, rfl, rfl⟩ := (hholds _ _ _).mp hlookup
      exact ⟨⟨hidle, hage⟩, hagent⟩

/-- If the timeouts can be counted in nanoseconds, a validation succeeds exactly if the past
has left the session alive, it is neither too old nor idle for too long, and the user agent
passes.  So no session outlives `absolute_ttl`, none is valid after a login for which it was
given up, and a login without a user changes nothing. -/
theorem validate_iff (h : SessionRuns past m)
    (hfits : ∀ e ∈ past, ∀ config, e.1.op = .configure config → config.Fits)
    (now : Int) (s userAgent : Bytes) :
    ((m.validate s userAgent now).1.valid = true ↔
      ∃ agent created last, Alive past s agent created last ∧
        now - created ≤ (configIn past).absoluteTtl * 1000000000 ∧
        now - last ≤ (configIn past).idleTimeout * 1000000000 ∧
        ((configIn past).bindUserAgent = false ∨ agent = [] ∨ agent = userAgent)) ∧
    (∀ e ∈ past, ∀ agent, e.Issues s agent →
      now - e.1.now > (configIn past).absoluteTtl * 1000000000 →
      (m.validate s userAgent now).1.valid = false) ∧
    (∀ before e after, past = before ++ e :: after → e.GivesUp s →
      (∃ x ∈ before, ∃ agent, x.Issues s agent) →
      (m.validate s userAgent now).1.valid = false) ∧
    ∀ source oldSessionId agent, (m.login source oldSessionId [] agent now).1.valid = false ∧
      (m.login source oldSessionId [] agent now).2 = m := by
  have htracks := Tracks.of_runs h
  have hdistinct := distinct_of_runs h
  have hvalid := htracks.validate_valid now s userAgent
  rw [nanoseconds_eq (fits_configIn hfits).1, nanoseconds_eq (fits_configIn hfits).2] at hvalid
  refine ⟨hvalid, ?_, ?_, fun source old agent =>
    SessionManager.login_refused source old (.inr rfl) agent now⟩
  · intro e he agent hissues hage
    rw [Bool.eq_false_iff]
    intro hv
    obtain ⟨agent', created, last, halive, hcreated, -⟩ := hvalid.mp hv
    have := halive.created_eq hdistinct he hissues
    omega
  · rintro before e after hpast hgives ⟨x, hx, agent, hissues⟩
    rw [Bool.eq_false_iff]
    intro hv
    obtain ⟨agent', created, last, halive, -⟩ := hvalid.mp hv
    exact not_alive_of_givesUp hdistinct hpast hgives hx hissues halive

theorem length_zeros (n : Nat) : (List.replicate n (0 : UInt8)).length = n := List.length_replicate

/-- A source that fills every buffer with ones. -/
def onesSource : RandomSource where
  getrandom n := (n, ⟨List.replicate n 1, List.length_replicate⟩)
  opens := false
  read n := (-1, ⟨List.replicate n 0, length_zeros n⟩)

/-- An id of ones. -/
def onesId : Bytes := hexText (List.replicate 32 1)

def onesPast : List SessionRecord :=
  [(⟨0, .configure {}⟩, none), (⟨1, .createAnonymous onesSource⟩, some ⟨true, onesId, []⟩)]

def onesManager : SessionManager where
  configured := true
  sessions := AList.singleton onesId ⟨[], [], 1, 1⟩

/-- A manager is configured and issues a session. -/
theorem runs_issued (config : SessionConfig) :
    SessionRuns [(⟨0, .configure config⟩, none), (⟨1, .createAnonymous onesSource⟩,
        some ⟨true, hexText (List.replicate config.idBytes 1), []⟩)]
      { config, configured := true
        sessions := AList.singleton (hexText (List.replicate config.idBytes 1)) ⟨[], [], 1, 1⟩ } := by
  have hstart : SessionRuns [] {} := .start
  have hconfigure : SessionRuns [(⟨0, .configure config⟩, none)] { config, configured := true } :=
    hstart.extend ⟨List.forall_mem_nil _, fun s agent _ => List.forall_mem_nil _⟩ rfl
  have hid : SessionManager.generateId { config, configured := true } onesSource =
      hexText (List.replicate config.idBytes 1) := by
    have hfilled : ¬ (config.idBytes : Int) < 0 := by omega
    simp [SessionManager.generateId, randomBytes, onesSource, hfilled]
  have horderly : Orderly [(⟨0, .configure config⟩, none)] { config, configured := true }
      ⟨1, .createAnonymous onesSource⟩ := by
    constructor
    · intro e he
      rw [List.mem_singleton.mp he]
      exact Int.one_nonneg
    · intro s agent _ e he agent' hissues
      rw [List.mem_singleton.mp he] at hissues
      exact hissues
  refine hconfigure.extend horderly ?_
  dsimp only [SessionManager.step]
  rw [SessionManager.createAnonymous_configured rfl, hid]
  rfl

theorem runs_onesPast : SessionRuns onesPast onesManager := runs_issued {}

theorem validate_iff_of_ones :
    (onesManager.validate onesId [] 2).1.valid = true ↔
      ∃ agent created last, Alive onesPast onesId agent created last ∧
        2 - created ≤ (configIn onesPast).absoluteTtl * 1000000000 ∧
        2 - last ≤ (configIn onesPast).idleTimeout * 1000000000 ∧
        ((configIn onesPast).bindUserAgent = false ∨ agent = [] ∨ agent = []) := by
  have hfits : ∀ e ∈ onesPast, ∀ config, e.1.op = .configure config → config.Fits := by
    intro e he config hop
    rcases List.mem_pair.mp he with rfl | rfl
    · cases hop
      exact ⟨by decide, by decide⟩
    · cases hop
  exact (validate_iff runs_onesPast hfits 2 onesId []).1

/-- Sessions are never to become idle. -/
def tirelessConfig : SessionConfig where
  idleTimeout := 9223372036854775807

def tirelessPast : List SessionRecord :=
  [(⟨0, .configure tirelessConfig⟩, none),
    (⟨1, .createAnonymous onesSource⟩, some ⟨true, onesId, []⟩)]

def tirelessManager : SessionManager where
  config := tirelessConfig
  configured := true
  sessions := AList.singleton onesId ⟨[], [], 1, 1⟩

/-- The idle timeout in nanoseconds is negative, so that a session is refused at once. -/
theorem tireless_refused :
    ∃ past m, SessionRuns past m ∧ ∃ s created last, Alive past s [] created last ∧
      2 - created ≤ (configIn past).absoluteTtl * 1000000000 ∧
      2 - last ≤ (configIn past).idleTimeout * 1000000000 ∧
      (m.validate s [] 2).1.valid = false := by
  refine ⟨tirelessPast, tirelessManager, runs_issued tirelessConfig, onesId, 1, 1, ?_, by decide,
    by decide, by decide +kernel⟩
  have hissues : SessionRecord.Issues
      (⟨1, .createAnonymous onesSource⟩, some ⟨true, onesId, []⟩) onesId [] := ⟨rfl, rfl, rfl⟩
  refine ⟨[(⟨0, .configure tirelessConfig⟩, none)], _, [], rfl, hissues, rfl, rfl,
    List.forall_mem_nil _, ?_⟩
  intro upTo d hbegins
  simp at hbegins

end McpToolkit
