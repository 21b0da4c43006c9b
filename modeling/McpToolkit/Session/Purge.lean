import McpToolkit.Session.History
/-!
# Purging

A purge takes nothing from the store that a validation would still accept, now or later.
So no one notices it.
-/

namespace McpToolkit

def SessionCall.isPurge (c : SessionCall) : Bool :=
  match c.op with
  | .purgeExpired => true
  | _ => false

/-- The answer to a validation. -/
def validFlag (e : SessionRecord) : Option Bool :=
  match e with
  | (⟨_, .validate _ _⟩, some r) => some r.valid
  | _ => none

namespace SessionManager

/-- A session is too old or idle for too long at the times of all these calls. -/
def Lapsed (config : SessionConfig) (calls : List SessionCall) (d : SessionData) : Prop :=
  ∀ c ∈ calls, Outlived config d.createdAt d.lastActive c.now

/-- A manager that has purged, and one that has not, before some more calls. -/
structure Lags (calls : List SessionCall) (m' m : SessionManager) : Prop where
  config : m'.config = m.config
  configured : m'.configured = m.configured
  fixed : ∀ c ∈ calls, ∀ config, c.op ≠ .configure config
  ordered : calls.Pairwise fun c d => c.now ≤ d.now
  sessions : Table.Pruned (Lapsed m.config calls) m'.sessions m.sessions

variable {calls : List SessionCall} {c : SessionCall} {m' m : SessionManager}

theorem Lapsed.tail {config : SessionConfig} {d : SessionData} (h : Lapsed config (c :: calls) d) :
    Lapsed config calls d :=
  fun c' hc' => h c' (List.mem_cons_of_mem c hc')

/-- Expiry is permanent. -/
theorem lapsed_of_isExpired (hordered : (c :: calls).Pairwise fun c d => c.now ≤ d.now)
    {d : SessionData} (h : m.isExpired c.now d = true) : Lapsed m.config (c :: calls) d := by
  rw [isExpired_iff] at h
  intro c' hc'
  have hle : c.now ≤ c'.now := by
    rcases List.mem_cons.mp hc' with rfl | hc'
    · exact le_rfl
    · exact (List.pairwise_cons.mp hordered).1 c' hc'
  unfold Outlived at *
  omega

/-- Calls that change neither configuration keep the lag if they keep that of the stores. -/
theorem Lags.next (h : Lags (c :: calls) m' m) {t' t : Table Bytes SessionData}
    (hsessions : Table.Pruned (Lapsed m.config calls) t' t) :
    Lags calls { m' with sessions := t' } { m with sessions := t } where
  config := h.config
  configured := h.configured
  fixed c' hc' := h.fixed c' (List.mem_cons_of_mem c hc')
  ordered := h.ordered.tail
  sessions := hsessions

theorem Lags.tail (h : Lags (c :: calls) m' m) :
    Table.Pruned (Lapsed m.config calls) m'.sessions m.sessions :=
  h.sessions.mono fun _ => Lapsed.tail

theorem Lags.purge (h : Lags (c :: calls) m' m) : Lags calls (m'.purgeExpired c.now) m := by
  refine h.next (h.tail.eraseIf fun d hd => ?_)
  have hlapsed := lapsed_of_isExpired h.ordered hd
  rw [h.config] at hlapsed
  exact hlapsed.tail

theorem Lags.isExpired (h : Lags calls m' m) (now : Int) (d : SessionData) :
    m'.isExpired now d = m.isExpired now d := by
  unfold SessionManager.isExpired
  rw [h.config]

theorem Lags.mismatches (h : Lags calls m' m) (d : SessionData) (agent : Bytes) :
    m'.mismatches d agent = m.mismatches d agent := by
  unfold SessionManager.mismatches
  rw [h.config]

theorem Lags.validate {now : Int} {s agent : Bytes}
    (h : Lags (⟨now, .validate s agent⟩ :: calls) m' m) :
    (m'.validate s agent now).1.valid = (m.validate s agent now).1.valid ∧
      Lags calls (m'.validate s agent now).2 (m.validate s agent now).2 := by
  have hsame : Lags calls m' m := h.next h.tail
  have hrefused : ∀ {n : SessionManager}, n.configured = false ∨ n.sessions.lookup s = none →
      (n.validate s agent now).1.valid = false ∧ (n.validate s agent now).2 = n :=
    validate_refused s agent now
  cases hconfigured : m.configured with
  | false =>
      obtain ⟨hvalid, hm⟩ := hrefused (.inl hconfigured)
      obtain ⟨hvalid', hm'⟩ := hrefused (.inl (h.configured.trans hconfigured))
      rw [hvalid, hvalid', hm, hm']
      exact ⟨rfl, hsame⟩
  | true =>
      have hconfigured' : m'.configured = true := h.configured.trans hconfigured
      rcases h.sessions s with heq | ⟨hnone', d, hd, hlapsed⟩
      · cases hd : m.sessions.lookup s with
        | none =>
            obtain ⟨hvalid, hm⟩ := hrefused (.inr hd)
            obtain ⟨hvalid', hm'⟩ := hrefused (.inr (heq.trans hd))
            rw [hvalid, hvalid', hm, hm']
            exact ⟨rfl, hsame⟩
        | some d =>
            have hd' := heq.trans hd
            by_cases hend : m.isExpired now d = true ∨ m.mismatches d agent = true
            · have hend' : m'.isExpired now d = true ∨ m'.mismatches d agent = true := by
                rwa [h.isExpired, h.mismatches]
              obtain ⟨hvalid, hm⟩ := validate_ended hconfigured hd agent now hend
              obtain ⟨hvalid', hm'⟩ := validate_ended hconfigured' hd' agent now hend'
              rw [hvalid, hvalid', hm, hm']
              exact ⟨rfl, h.next (h.tail.erase s)⟩
            · rw [not_or, Bool.not_eq_true, Bool.not_eq_true] at hend
              have haccepted := validate_accepted hconfigured hd agent now hend.1 hend.2
              have haccepted' := validate_accepted hconfigured' hd' agent now
                ((h.isExpired now d).trans hend.1) ((h.mismatches d agent).trans hend.2)
              rw [haccepted, haccepted']
              exact ⟨rfl, h.next (h.tail.insert s _)⟩
      · -- the session has been purged, so it is expired where it is still stored
        have hexpired : m.isExpired now d = true := isExpired_iff.mpr (hlapsed _ List.mem_cons_self)
        obtain ⟨hvalid, hm⟩ := validate_ended hconfigured hd agent now (.inl hexpired)
        obtain ⟨hvalid', hm'⟩ := hrefused (.inr hnone')
        rw [hvalid, hvalid', hm, hm']
        exact ⟨rfl, h.next (h.tail.erase_right hnone')⟩

theorem Lags.createAnonymous {now : Int} {source : RandomSource}
    (h : Lags (⟨now, .createAnonymous source⟩ :: calls) m' m) :
    Lags calls (m'.createAnonymous source now).2 (m.createAnonymous source now).2 := by
  have hid : m'.generateId source = m.generateId source := by
    rw [generateId, generateId, h.config]
  cases hconfigured : m.configured with
  | false =>
      rw [createAnonymous_unconfigured hconfigured,
        createAnonymous_unconfigured (h.configured.trans hconfigured)]
      exact h.next h.tail
  | true =>
      rw [createAnonymous_configured hconfigured,
        createAnonymous_configured (h.configured.trans hconfigured), hid]
      exact h.next (h.tail.insert _ _)

theorem Lags.login {now : Int} {source : RandomSource} {old userId agent : Bytes}
    (h : Lags (⟨now, .login source old userId agent⟩ :: calls) m' m) :
    Lags calls (m'.login source old userId agent now).2 (m.login source old userId agent now).2 := by
  have hid : m'.generateId source = m.generateId source := by
    rw [generateId, generateId, h.config]
  by_cases hrefused : m.configured = false ∨ userId = []
  · have hrefused' : m'.configured = false ∨ userId = [] :=
      hrefused.imp_left (h.configured.trans ·)
    rw [(login_refused source old hrefused agent now).2,
      (login_refused source old hrefused' agent now).2]
    exact h.next h.tail
  · rw [not_or, Bool.not_eq_false] at hrefused
    rw [login_accepted hrefused.1 source old hrefused.2,
      login_accepted (h.configured.trans hrefused.1) source old hrefused.2, hid]
    exact h.next ((h.tail.erase old).insert _ _)

/-- A call is answered alike, but for a purge, and keeps the lag. -/
theorem Lags.step (h : Lags (c :: calls) m' m) :
    validFlag (c, (m'.step c).1) = validFlag (c, (m.step c).1) ∧
      Lags calls (m'.step c).2 (if c.isPurge then m else (m.step c).2) := by
  obtain ⟨now, op⟩ := c
  cases op with
  | configure config => exact absurd rfl (h.fixed _ List.mem_cons_self config)
  | createAnonymous source => exact ⟨rfl, h.createAnonymous⟩
  | login source old userId agent => exact ⟨rfl, h.login⟩
  | validate s agent => exact ⟨congrArg some h.validate.1, h.validate.2⟩
  | logout s => exact ⟨rfl, h.next (h.tail.erase s)⟩
  | purgeExpired => exact ⟨rfl, h.purge⟩

/-- Validations answer alike with and without the purges. -/
theorem Lags.records (h : Lags calls m' m) :
    (Machine.records SessionManager.step m' calls).filterMap validFlag =
      (Machine.records SessionManager.step m
        (calls.filter fun c => !c.isPurge)).filterMap validFlag := by
  refine Machine.observe_records validFlag SessionCall.isPurge (fun c calls m' m h hc => ?_)
    (fun c calls m' m h hc => ?_) h
  · have hlags := h.step.2
    rw [hc, if_pos rfl] at hlags
    obtain ⟨now, op⟩ := c
    cases op with
    | purgeExpired => exact ⟨rfl, hlags⟩
    | _ => exact Bool.noConfusion hc
  · obtain ⟨hsame, hlags⟩ := h.step
    rw [hc, if_neg Bool.false_ne_true] at hlags
    exact ⟨hsame, hlags⟩

theorem mem_purgeExpired {now : Int} {s : Bytes} :
    s ∈ (m.purgeExpired now).sessions ↔
      ∃ d, (m.purgeExpired now).sessions.lookup s = some d ∧ m.isExpired now d = false := by
  rw [← AList.lookup_isSome, Option.isSome_iff_exists]
  refine exists_congr fun d => ⟨fun hd => ⟨hd, ?_⟩, And.left⟩
  rw [purgeExpired, Table.lookup_eraseIf, Option.filter_eq_some_iff] at hd
  simpa using hd.2

/-- Someone who has the user agent of a session is let in until it expires. -/
theorem validate_own_agent (h : m.configured = true) {s : Bytes} {d : SessionData}
    (hd : m.sessions.lookup s = some d) (now : Int) :
    (m.validate s d.userAgent now).1.valid = !m.isExpired now d := by
  cases hexpired : m.isExpired now d with
  | true => exact (validate_ended h hd d.userAgent now (.inl hexpired)).1
  | false =>
      have hmatches : m.mismatches d d.userAgent = false := by simp [SessionManager.mismatches]
      rw [validate_accepted h hd d.userAgent now hexpired hmatches, Bool.not_false]

/-- What is counted after a purge. -/
theorem activeCount_purgeExpired (h : m.configured = true) (now : Int) :
    (m.purgeExpired now).activeCount =
      Set.ncard {s | ∃ d, (m.purgeExpired now).sessions.lookup s = some d ∧
        ((m.purgeExpired now).validate s d.userAgent now).1.valid = true} := by
  rw [activeCount, ← Table.ncard_keys]
  congr 1
  ext s
  rw [Set.mem_ofPred_eq, Set.mem_ofPred_eq, mem_purgeExpired]
  refine exists_congr fun d => and_congr_right fun hd => ?_
  have hconfigured : (m.purgeExpired now).configured = true := h
  rw [validate_own_agent hconfigured hd, Bool.not_eq_true']
  rfl

end SessionManager

/-- Purges that are put between other calls change no answer to a validation, and what
is counted right after one are the sessions that would pass. -/
theorem purge_unobservable (m : SessionManager) (hconfigured : m.configured = true)
    (calls : List SessionCall) (hfixed : ∀ c ∈ calls, ∀ config, c.op ≠ .configure config)
    (hordered : calls.Pairwise fun c d => c.now ≤ d.now) :
    (Machine.records SessionManager.step m calls).filterMap validFlag =
        (Machine.records SessionManager.step m
          (calls.filter fun c => !c.isPurge)).filterMap validFlag ∧
      ∀ now, (m.purgeExpired now).activeCount =
        Set.ncard {s | ∃ d, (m.purgeExpired now).sessions.lookup s = some d ∧
          ((m.purgeExpired now).validate s d.userAgent now).1.valid = true} := by
  have hlags : SessionManager.Lags calls m m := {
    config := rfl
    configured := rfl
    fixed := hfixed
    ordered := hordered
    sessions := .refl _ _ }
  exact ⟨hlags.records, fun now => SessionManager.activeCount_purgeExpired hconfigured now⟩

/-- A session is used, idles for an hour, is purged and is asked for again. -/
def purgedCalls : List SessionCall :=
  [⟨2, .validate onesId []⟩, ⟨3600000000002, .purgeExpired⟩, ⟨3600000000003, .validate onesId []⟩]

theorem purge_unobservable_of_ones :
    (Machine.records SessionManager.step onesManager purgedCalls).filterMap validFlag =
        (Machine.records SessionManager.step onesManager
          (purgedCalls.filter fun c => !c.isPurge)).filterMap validFlag ∧
      (onesManager.purgeExpired 2).activeCount =
        Set.ncard {s | ∃ d, (onesManager.purgeExpired 2).sessions.lookup s = some d ∧
          ((onesManager.purgeExpired 2).validate s d.userAgent 2).1.valid = true} := by
  have hfixed : ∀ c ∈ purgedCalls, ∀ config, c.op ≠ .configure config := by
    intro c hc config
    simp only [purgedCalls, List.mem_cons, List.not_mem_nil, or_false] at hc
    rcases hc with rfl | rfl | rfl <;> exact SessionOp.noConfusion
  have hordered : purgedCalls.Pairwise fun c d => c.now ≤ d.now := by
    simp [purgedCalls]
  have h := purge_unobservable onesManager rfl purgedCalls hfixed hordered
  exact ⟨h.1, h.2 2⟩

end McpToolkit
