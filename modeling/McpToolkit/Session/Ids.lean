import McpToolkit.Session.History
/-!
# Where ids come from

The manager stores a session under whatever id the operating system's octets give.
If they fall short the octets are zeros, and no one looks whether the id is in use.
So ids are kept apart exactly as long as no call draws the octets of a session that
an earlier call drew them for and that is not over yet.
-/

namespace McpToolkit

open SessionRecord

/-- What the octets of an id can be: those of `getrandom` if it fills the buffer, those
of `/dev/urandom` if that does, zeros otherwise. -/
inductive RandomSource.Draws (source : RandomSource) (n : Nat) : Bytes → Prop where
  | getrandom : (source.getrandom n).1 = n → Draws source n (source.getrandom n).2.1
  | urandom : (source.getrandom n).1 ≠ n → source.opens = true → (source.read n).1 = n →
      Draws source n (source.read n).2.1
  | zeros : (source.getrandom n).1 ≠ n → ¬ (source.opens = true ∧ (source.read n).1 = n) →
      Draws source n (List.replicate n 0)

theorem RandomSource.draws_iff (source : RandomSource) (n : Nat) (buf : Bytes) :
    source.Draws n buf ↔ buf = randomBytes n source := by
  have hshort : (decide ((source.getrandom n).1 < 0) || decide ((source.getrandom n).1 ≠ n)) = true ↔
      (source.getrandom n).1 ≠ n := by
    simp only [Bool.or_eq_true, decide_eq_true_eq]
    omega
  unfold randomBytes
  dsimp only
  constructor
  · intro h
    cases h with
    | getrandom hfull => rw [if_neg (mt hshort.mp (not_not_intro hfull))]
    | urandom hfull hopens hread =>
        rw [if_pos (hshort.mpr hfull), if_neg (by simp [hopens]), if_neg (not_not_intro hread)]
    | zeros hfull hrest =>
        rw [if_pos (hshort.mpr hfull)]
        split_ifs with hopens hread
        · rfl
        · rfl
        · exact absurd ⟨by simpa using hopens, not_not.mp hread⟩ hrest
  · rintro rfl
    split_ifs with hfull hopens hread
    · exact .zeros (hshort.mp hfull) (by simp_all)
    · exact .zeros (hshort.mp hfull) fun h => hread h.2
    · exact .urandom (hshort.mp hfull) (by simpa using hopens) (not_not.mp hread)
    · exact .getrandom (not_not.mp (mt hshort.mpr hfull))

namespace SessionManager

/-- A call that issues a session gives it an id that no stored session has, and leaves
the stored sessions as they are.  The session that a login gives up is no longer stored. -/
def Unshared (m : SessionManager) (c : SessionCall) : Prop :=
  match c.op with
  | .createAnonymous source =>
      let (r, m') := m.createAnonymous source c.now
      r.valid = true → r.sessionId ∉ m.sessions ∧
        ∀ s ∈ m.sessions, m'.sessions.lookup s = m.sessions.lookup s
  | .login source oldSessionId userId userAgent =>
      let (r, m') := m.login source oldSessionId userId userAgent c.now
      r.valid = true → r.sessionId ∉ m.sessions.erase oldSessionId ∧
        ∀ s ∈ m.sessions.erase oldSessionId, m'.sessions.lookup s = m.sessions.lookup s
  | _ => True

end SessionManager

/-! ## What was drawn -/

namespace SessionCall

/-- The octets that a call draws for the id of the session that it issues. -/
def Draws (past : List SessionRecord) (c : SessionCall) (buf : Bytes) : Prop :=
  ConfiguredIn past ∧
    match c.op with
    | .createAnonymous source => source.Draws (configIn past).idBytes buf
    | .login source _ userId _ => userId ≠ [] ∧ source.Draws (configIn past).idBytes buf
    | _ => False

/-- A login that gives up a session. -/
def Replaces (c : SessionCall) (s : Bytes) : Prop :=
  match c.op with
  | .login _ oldSessionId _ _ => oldSessionId = s
  | _ => False

end SessionCall

/-- A call draws octets that an earlier one has drawn, for a session that is not over yet and
that the call does not give up. -/
def Repeats (past : List SessionRecord) (c : SessionCall) : Prop :=
  ∃ buf, c.Draws past buf ∧ ¬ c.Replaces (hexText buf) ∧
    ∃ before e since, past = before ++ e :: since ∧ e.1.Draws before buf ∧
      Lasts before e since (hexText buf)

theorem hexDigit_inj : ∀ m < 16, ∀ n < 16, hexDigit m.toUInt8 = hexDigit n.toUInt8 → m = n := by
  decide

theorem hexDigits_inj {a b : UInt8} (hhigh : hexDigit (a / 16) = hexDigit (b / 16))
    (hlow : hexDigit (a % 16) = hexDigit (b % 16)) : a = b := by
  have hdigit : ∀ {m n : UInt8}, m.toNat < 16 → n.toNat < 16 → hexDigit m = hexDigit n →
      m.toNat = n.toNat := by
    intro m n hm hn hdigits
    refine hexDigit_inj m.toNat hm n.toNat hn ?_
    simp only [Nat.toUInt8, UInt8.ofNat_toNat]
    exact hdigits
  have hlt : ∀ c : UInt8, (c / 16).toNat < 16 ∧ (c % 16).toNat < 16 := by
    intro c
    have hc := c.toNat_lt
    rw [UInt8.toNat_div, UInt8.toNat_mod]
    change c.toNat / 16 < 16 ∧ c.toNat % 16 < 16
    omega
  have hdiv := hdigit (hlt a).1 (hlt b).1 hhigh
  have hmod := hdigit (hlt a).2 (hlt b).2 hlow
  rw [UInt8.toNat_div, UInt8.toNat_div] at hdiv
  rw [UInt8.toNat_mod, UInt8.toNat_mod] at hmod
  change a.toNat / 16 = b.toNat / 16 at hdiv
  change a.toNat % 16 = b.toNat % 16 at hmod
  apply UInt8.toNat_inj.mp
  omega

/-- Other octets give another id. -/
theorem hexText_inj : ∀ {s t : Bytes}, hexText s = hexText t → s = t
  | [], [], _ => rfl
  | [], _ :: _, h => absurd h (by simp [hexText])
  | _ :: _, [], h => absurd h (by simp [hexText])
  | a :: s, b :: t, h => by
      simp only [hexText, List.flatMap_cons, List.cons_append, List.nil_append,
        List.cons.injEq] at h
      obtain ⟨hhigh, hlow, hrest⟩ := h
      rw [hexDigits_inj hhigh hlow, hexText_inj hrest]

namespace SessionManager

variable {past : List SessionRecord} {m : SessionManager}

theorem config_of_runs (h : Machine.FreeRuns step {} past m) :
    m.config = configIn past ∧ (m.configured = true ↔ ConfiguredIn past) := by
  induction h with
  | start => exact ⟨rfl, by simp [ConfiguredIn]⟩
  | next c _ _ ih => exact ⟨step_config ih.1 c, step_configured ih.2 c⟩

/-- The sessions that a call issues are those of the octets that it draws. -/
theorem issues_iff_draws (h : Machine.FreeRuns step {} past m) (c : SessionCall) (s : Bytes) :
    (∃ agent, Issues (c, (m.step c).1) s agent) ↔ ∃ buf, c.Draws past buf ∧ hexText buf = s := by
  obtain ⟨hconfig, hconfigured⟩ := config_of_runs h
  have hid : ∀ source, m.generateId source = hexText (randomBytes (configIn past).idBytes source) := by
    intro source
    rw [generateId, hconfig]
  obtain ⟨now, op⟩ := c
  simp only [SessionCall.Draws, ← hconfigured]
  cases op with
  | createAnonymous source =>
      simp only [step, RandomSource.draws_iff]
      cases hc : m.configured with
      | false => simp [createAnonymous_unconfigured hc, notConfigured, Issues]
      | true => simp [createAnonymous_configured hc, Issues, hid]
  | login source old userId userAgent =>
      simp only [step, RandomSource.draws_iff]
      by_cases hrefused : m.configured = false ∨ userId = []
      · have hvalid := (login_refused source old hrefused userAgent now).1
        refine iff_of_false ?_ ?_
        · simp [Issues, hvalid]
        · rintro ⟨buf, ⟨hc, huser, -⟩, -⟩
          rcases hrefused with h | h
          · exact Bool.false_ne_true (h.symm.trans hc)
          · exact huser h
      · rw [not_or, Bool.not_eq_false] at hrefused
        simp [login_accepted hrefused.1 source old hrefused.2, Issues, hid, hrefused]
  | configure config => simp [Issues]
  | validate t userAgent => simp [Issues]
  | logout t => simp [Issues]
  | purgeExpired => simp [Issues]

theorem mem_iff_holds {t : Table Bytes SessionData} {s : Bytes} :
    s ∈ t ↔ ∃ agent created last, Holds t s agent created last := by
  rw [← AList.lookup_isSome, Option.isSome_iff_exists]
  constructor
  · rintro ⟨d, hd⟩
    exact ⟨_, _, _, d, hd, rfl, rfl, rfl⟩
  · rintro ⟨agent, created, last, d, hd, -⟩
    exact ⟨d, hd⟩

/-- The octets of a stored session were drawn by a call whose session is not over. -/
theorem stored_iff (h : Machine.FreeRuns step {} past m) (htracks : Tracks past m) (buf : Bytes) :
    hexText buf ∈ m.sessions ↔ ∃ before e since, past = before ++ e :: since ∧
      e.1.Draws before buf ∧ Lasts before e since (hexText buf) := by
  have hdrew : ∀ before e since, past = before ++ e :: since →
      ((∃ agent, e.Issues (hexText buf) agent) ↔ e.1.Draws before buf) := by
    rintro before ⟨c, r⟩ since rfl
    have hbegins : before ++ [(c, r)] <+: before ++ (c, r) :: since := ⟨since, by simp⟩
    obtain ⟨m₁, hrun, -, hr⟩ := h.step_of_prefix hbegins
    rw [hr, issues_iff_draws hrun]
    constructor
    · rintro ⟨buf', hdraws, hbuf⟩
      rwa [← hexText_inj hbuf]
    · exact fun hdraws => ⟨buf, hdraws, rfl⟩
  simp only [mem_iff_holds, htracks.sessions]
  constructor
  · rintro ⟨agent, created, last, before, e, since, hpast, hissues, -, -, hlasts⟩
    exact ⟨before, e, since, hpast, (hdrew before e since hpast).mp ⟨agent, hissues⟩, hlasts⟩
  · rintro ⟨before, e, since, hpast, hdraws, hlasts⟩
    obtain ⟨agent, hissues⟩ := (hdrew before e since hpast).mpr hdraws
    exact ⟨agent, _, _, before, e, since, hpast, hissues, rfl, rfl, hlasts⟩

/-- A call keeps ids apart exactly if what it issues is not stored, but for the session that it
gives up. -/
theorem unshared_iff (m : SessionManager) (c : SessionCall) :
    m.Unshared c ↔ ∀ s agent, Issues (c, (m.step c).1) s agent → s ∈ m.sessions → c.Replaces s := by
  obtain ⟨now, op⟩ := c
  have hkept : ∀ {t : Table Bytes SessionData} {id s : Bytes} {d : SessionData}, id ∉ t → s ∈ t →
      (t.insert id d).lookup s = t.lookup s := by
    intro t id s d hid hs
    rw [Table.lookup_insert_eq, if_neg]
    rintro rfl
    exact hid hs
  cases op with
  | createAnonymous source =>
      simp only [Unshared, step, SessionCall.Replaces, imp_false]
      cases hconfigured : m.configured with
      | false => simp [createAnonymous_unconfigured hconfigured, notConfigured, Issues]
      | true =>
          simp only [createAnonymous_configured hconfigured, Issues, Prod.map]
          constructor
          · rintro h s agent ⟨-, rfl, -⟩
            exact (h trivial).1
          · intro h _
            have hid := h _ [] ⟨trivial, rfl, rfl⟩
            exact ⟨hid, fun s hs => hkept hid hs⟩
  | login source old userId userAgent =>
      simp only [Unshared, step, SessionCall.Replaces]
      by_cases hrefused : m.configured = false ∨ userId = []
      · simp [(login_refused source old hrefused userAgent now).1, Issues]
      · rw [not_or, Bool.not_eq_false] at hrefused
        simp only [login_accepted hrefused.1 source old hrefused.2, Issues, Prod.map]
        constructor
        · rintro h s agent ⟨-, rfl, -⟩ hs
          by_contra hold
          exact (h trivial).1 (AList.mem_erase.mpr ⟨Ne.symm hold, hs⟩)
        · intro h _
          have hid : m.generateId source ∉ m.sessions.erase old := by
            intro hmem
            obtain ⟨hne, hs⟩ := AList.mem_erase.mp hmem
            exact hne (h _ userAgent ⟨trivial, rfl, rfl⟩ hs).symm
          refine ⟨hid, fun s hs => (hkept hid hs).trans ?_⟩
          rw [Table.lookup_erase_eq, if_neg (AList.mem_erase.mp hs).1]
  | configure config => simp [Unshared, Issues]
  | validate t userAgent => simp [Unshared, Issues]
  | logout t => simp [Unshared, Issues]
  | purgeExpired => simp [Unshared, Issues]

theorem givesUp_of_replaces {c : SessionCall} {r : Option SessionResult} {s agent : Bytes}
    (hissues : Issues (c, r) s agent) (hreplaces : c.Replaces s) : GivesUp (c, r) s := by
  obtain ⟨now, op⟩ := c
  cases op with
  | login source old userId userAgent =>
      cases r with
      | none => exact hissues.elim
      | some r => exact ⟨hissues.1, hreplaces⟩
  | _ => exact hreplaces.elim

/-- As long as ids are kept apart, the store holds what the past leaves alive. -/
theorem tracks_of_unshared (h : Machine.FreeRuns step {} past m)
    (hunshared : Machine.Everywhere step {} Unshared past) : Tracks past m := by
  induction h with
  | start => exact .start
  | @next past m c hrun _ ih =>
      refine (ih hunshared.of_append).next c fun s agent hissues => ?_
      by_cases hs : s ∈ m.sessions
      · have hlast := hunshared past c _ m (List.prefix_refl _) hrun
        have hreplaces := (m.unshared_iff c).mp hlast s agent hissues hs
        exact .inr (givesUp_of_replaces hissues hreplaces)
      · exact .inl (AList.lookup_eq_none.mpr hs)

theorem unshared_iff_not_repeats (h : Machine.FreeRuns step {} past m) (htracks : Tracks past m)
    (c : SessionCall) : m.Unshared c ↔ ¬ Repeats past c := by
  rw [unshared_iff]
  constructor
  · rintro hunshared ⟨buf, hdraws, hkeeps, hstored⟩
    obtain ⟨agent, hissues⟩ := (issues_iff_draws h c (hexText buf)).mpr ⟨buf, hdraws, rfl⟩
    exact hkeeps (hunshared _ agent hissues ((stored_iff h htracks buf).mpr hstored))
  · intro hrepeats s agent hissues hs
    obtain ⟨buf, hdraws, rfl⟩ := (issues_iff_draws h c s).mp ⟨agent, hissues⟩
    by_contra hkeeps
    exact hrepeats ⟨buf, hdraws, hkeeps, (stored_iff h htracks buf).mp hs⟩

end SessionManager

open SessionManager

/-- In a run, no call hands out the id of a stored session or overwrites one exactly if no
call draws octets anew for which a session lasts. -/
theorem unshared_everywhere_iff {past : List SessionRecord} {m : SessionManager}
    (h : Machine.FreeRuns SessionManager.step {} past m) :
    Machine.Everywhere SessionManager.step {} Unshared past ↔
      ∀ before e, before ++ [e] <+: past → ¬ Repeats before e.1 := by
  induction h with
  | start =>
      refine iff_of_true (fun before c r m hbegins => ?_) fun before e hbegins => ?_
      · simp at hbegins
      · simp at hbegins
  | @next past m c hrun _ ih =>
      rw [Machine.everywhere_concat hrun, forall_prefix_concat, ← ih]
      exact and_congr_right fun hunshared =>
        unshared_iff_not_repeats hrun (tracks_of_unshared hrun hunshared) c

/-- A source that fails. -/
def failingSource : RandomSource where
  getrandom n := (-1, ⟨List.replicate n 0, length_zeros n⟩)
  opens := false
  read n := (-1, ⟨List.replicate n 0, length_zeros n⟩)

/-- The id of zeros. -/
def zerosId : Bytes := hexText (List.replicate 32 0)

/-- A manager is configured and issues a session from zeros. -/
def zerosPast : List SessionRecord :=
  [(⟨0, .configure {}⟩, none), (⟨0, .createAnonymous failingSource⟩, some ⟨true, zerosId, []⟩)]

def zerosManager : SessionManager where
  configured := true
  sessions := AList.singleton zerosId ⟨[], [], 0, 0⟩

theorem runs_zerosPast :
    Machine.FreeRuns SessionManager.step {} zerosPast zerosManager := by
  have hstart : Machine.FreeRuns SessionManager.step {} [] {} := .start
  have hconfigure : Machine.FreeRuns SessionManager.step {}
      [(⟨0, .configure {}⟩, none)] { configured := true } :=
    .next (⟨0, .configure {}⟩ : SessionCall) hstart trivial
  exact .next ⟨0, .createAnonymous failingSource⟩ hconfigure trivial

/-- A single session may well have the id of zeros. -/
theorem unshared_zerosPast : Machine.Everywhere SessionManager.step {} Unshared zerosPast := by
  refine (unshared_everywhere_iff runs_zerosPast).mpr fun before e hbegins hrepeats => ?_
  obtain ⟨buf, -, -, earlier, x, since, hbefore, ⟨⟨y, hy, -⟩, -⟩, -⟩ := hrepeats
  have hlen := hbegins.length_le
  have hpos := List.length_pos_of_mem hy
  rw [hbefore, List.length_append, List.length_append, List.length_cons] at hlen
  have htwo : zerosPast.length = 2 := rfl
  have hone : [e].length = 1 := rfl
  omega

/-- Two sessions are issued while the source fails: the second takes over the id of the
first. -/
theorem shared_zerosId :
    ∃ past m, Machine.FreeRuns SessionManager.step {} past m ∧
      ¬ Machine.Everywhere SessionManager.step {} Unshared past := by
  refine ⟨_, _, .next ⟨1, .createAnonymous failingSource⟩ runs_zerosPast trivial, ?_⟩
  intro hunshared
  have hfresh := hunshared zerosPast ⟨1, .createAnonymous failingSource⟩ _ zerosManager
    (List.prefix_refl _) runs_zerosPast
  have hstored : zerosId ∈ zerosManager.sessions := List.mem_singleton.mpr rfl
  exact (hfresh rfl).1 hstored

end McpToolkit
